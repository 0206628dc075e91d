import Draft.Foundation.ConsecutiveLog
import Draft.Raft.Cluster

/-!
# The apply loop

The commit index is raised by one thread and the entries are applied by
another one.  The queue between them carries wake-ups and no indices.  Here the
two assignments of a commit, and the loop from one read of shared state to the
next, are steps of their own, taken in any order.
-/

namespace Draft

open Consensus

inductive ApplyPoint where
  | waiting
  | testing
  | reading
  /-- In the callback, before the test for compaction. -/
  | called (index : Nat)
  | dropping (index : Nat)
  | ended
  deriving DecidableEq, Repr

structure Applying extends Replica where
  compaction : Bool
  /-- `log_committed_queue`. -/
  queue : List Bool
  /-- Raised commit indices whose push is still to be made. -/
  pushes : Nat
  point : ApplyPoint
  /-- A null pointer was read. -/
  faulted : Bool
  /-- History: the entries above the first base, those dropped since included. -/
  held : List LogEntry

inductive ApplyEvent where
  /-- Both commit rules stay within the log. -/
  | raise (index : Nat)
  | push
  | stop
  /-- The apply thread goes on to its next read. -/
  | loop
  /-- Entries that go on where the log ends. -/
  | append (batch : List LogEntry)
  /-- A truncation above the commit index. -/
  | truncate (index : Nat)
  deriving DecidableEq, Repr

namespace Applying

/-- `bootstrap_cluster_config` on a new log, with the configuration of a servers line. -/
def bootstrap (compaction : Bool) (servers : Option Bytes) : Applying :=
  let empty : EntryLogger :=
    { lastIndex := 0, lastTerm := 0, lastConfig := [], entries := [], cfgEntryIndex := 0 }
  let entries := (servers.map fun config => empty.makeEntry config 1 1 true).toList
  { log := empty.append entries
    commitIndex := entries.length
    lastApplied := 0
    applied := []
    compaction := compaction
    queue := []
    pushes := 0
    point := .waiting
    faulted := false
    held := entries }

/-- `load_config` with a configuration in the log or in its stat file. -/
def restart (compaction : Bool) (log : EntryLogger) : Applying :=
  { log := log
    commitIndex := log.lastIndex
    lastApplied := log.lastIndex
    applied := []
    compaction := compaction
    queue := []
    pushes := 0
    point := .waiting
    faulted := false
    held := log.entries }

inductive Started : Applying → Prop
  | bootstrap (compaction : Bool) (servers : Option Bytes) :
      Started (bootstrap compaction servers)
  | restart (compaction : Bool) {log : EntryLogger} (h : log.Consecutive) :
      Started (restart compaction log)

variable (s : Applying)

/-- The apply thread up to its next read; it is blocked while the queue is empty. -/
def loop : Option Applying :=
  match s.point with
  | .waiting =>
      match s.queue with
      | [] => none
      | ended :: queue =>
          some { s with queue := queue, point := if ended then .ended else .testing }
  | .testing =>
      some { s with point := if s.lastApplied < s.commitIndex then .reading else .waiting }
  | .reading =>
      let index := s.lastApplied + 1
      match s.log.get index with
      | none => some { s with lastApplied := index, faulted := true }
      | some e =>
          if e.config then some { s with lastApplied := index, point := .testing }
          else some { s with
            lastApplied := index
            applied := s.applied ++ [(index, e)]
            point := .called e.index }
  | .called index =>
      some { s with
        point := if s.compaction ∧ index = s.commitIndex then .dropping index else .testing }
  | .dropping index =>
      some { s with log := (s.log.drop index).getD s.log, point := .testing }
  | .ended => none

def step : ApplyEvent → Option Applying
  | .raise index =>
      if s.commitIndex ≤ index ∧ index ≤ s.log.lastEntryIndex then
        some { s with commitIndex := index, pushes := s.pushes + 1 }
      else none
  | .push =>
      if 0 < s.pushes then some { s with pushes := s.pushes - 1, queue := s.queue ++ [false] }
      else none
  | .stop => some { s with queue := s.queue ++ [true] }
  | .loop => if s.faulted then none else s.loop
  | .append batch =>
      if (s.log.append batch).Consecutive then
        some { s with log := s.log.append batch, held := s.held ++ batch }
      else none
  | .truncate index =>
      if s.commitIndex < index then
        (s.log.chop index).map fun log =>
          { s with log := log, held := s.held.filter (·.index < index) }
      else none

/-! ## What was handed over -/

def handed (held : List LogEntry) (base index : Nat) : List (Nat × LogEntry) :=
  ((held.take (index - base)).filter (!·.config)).map fun e => (e.index, e)

variable {s} {t : Applying} {base : Nat}

structure InStep (base : Nat) (s : Applying) : Prop where
  indexed : ∀ k e, s.held[k]? = some e → e.index = base + k + 1
  entries : s.log.entries = s.held.drop (s.log.lastIndex - base)
  base_le : base ≤ s.log.lastIndex
  dropped_le : s.log.lastIndex ≤ s.lastApplied
  applied_le : s.lastApplied ≤ s.commitIndex
  commit_le : s.commitIndex ≤ base + s.held.length
  reading : s.point = .reading → s.lastApplied < s.commitIndex
  called : ∀ i, s.point = .called i ∨ s.point = .dropping i → i = s.lastApplied
  sound : s.faulted = false
  applied : s.applied = handed s.held base s.lastApplied
  /-- While the thread waits and no push is to come, nothing is left to hand over. -/
  awake : s.point = .waiting → s.queue = [] → s.pushes = 0 →
    handed s.held base s.commitIndex = handed s.held base s.lastApplied

private theorem handed_append {held : List LogEntry} {index : Nat} (h : index ≤ base + held.length)
    (batch : List LogEntry) : handed (held ++ batch) base index = handed held base index := by
  unfold handed
  rw [List.take_append_of_le_length (by omega)]

private theorem handed_take {held : List LogEntry} {index k : Nat} (h : index ≤ base + k) :
    handed (held.take k) base index = handed held base index := by
  unfold handed
  rw [List.take_take, Nat.min_eq_left (by omega)]

private theorem handed_succ {held : List LogEntry} {index : Nat} {e : LogEntry} (hbase : base ≤ index)
    (he : held[index - base]? = some e) :
    handed held base (index + 1) =
      handed held base index ++ if e.config then [] else [(e.index, e)] := by
  unfold handed
  rw [Nat.sub_add_comm hbase, List.take_add_one, he, List.filter_append, List.map_append]
  cases hconfig : e.config <;> simp [hconfig]

private theorem filter_below {held : List LogEntry}
    (hindexed : ∀ k e, held[k]? = some e → e.index = base + k + 1) (i : Nat) :
    held.filter (·.index < i) = held.take (i - base - 1) := by
  apply filter_eq_take
  · intro e he
    rw [List.mem_take_iff_getElem] at he
    obtain ⟨k, hk, rfl⟩ := he
    have := hindexed k _ (List.getElem?_eq_getElem (by omega))
    simp only [decide_eq_true_eq]
    omega
  · intro e he
    rw [List.mem_drop_iff_getElem] at he
    obtain ⟨k, hk, rfl⟩ := he
    have := hindexed (i - base - 1 + k) _ (List.getElem?_eq_getElem (by omega))
    simp only [decide_eq_false_iff_not]
    omega

namespace InStep

theorem consecutive (h : InStep base s) : s.log.Consecutive := by
  intro k e he
  rw [h.entries, List.getElem?_drop] at he
  have hindex := h.indexed _ e he
  have hbase := h.base_le
  omega

theorem lastEntryIndex_eq (h : InStep base s) :
    s.log.lastEntryIndex = base + s.held.length := by
  have hbase := h.base_le
  have hlast := h.dropped_le.trans (h.applied_le.trans h.commit_le)
  rw [h.consecutive.lastEntryIndex_eq, h.entries, List.length_drop]
  omega

private theorem get_next (h : InStep base s) (hreading : s.point = .reading) :
    ∃ e, s.log.get (s.lastApplied + 1) = some e ∧ s.held[s.lastApplied - base]? = some e ∧
      e.index = s.lastApplied + 1 := by
  have hbase := h.base_le
  have hdropped := h.dropped_le
  have hlt := Nat.lt_of_lt_of_le (h.reading hreading) h.commit_le
  obtain ⟨e, he⟩ : ∃ e, s.held[s.lastApplied - base]? = some e :=
    ⟨_, List.getElem?_eq_getElem (by omega)⟩
  refine ⟨e, ?_, he, ?_⟩
  · rw [h.consecutive.get_eq, if_neg (by omega), if_pos (by omega), h.entries,
      List.getElem?_drop, ← he]
    congr 1
    omega
  · have := h.indexed _ e he
    omega

theorem move (h : InStep base s) (queue : List Bool) {point : ApplyPoint}
    (hreading : point = .reading → s.lastApplied < s.commitIndex)
    (hcalled : ∀ i, point = .called i ∨ point = .dropping i → i = s.lastApplied)
    (hawake : point = .waiting → s.commitIndex ≤ s.lastApplied) :
    InStep base { s with queue := queue, point := point } where
  indexed := h.indexed
  entries := h.entries
  base_le := h.base_le
  dropped_le := h.dropped_le
  applied_le := h.applied_le
  commit_le := h.commit_le
  reading := hreading
  called := hcalled
  sound := h.sound
  applied := h.applied
  awake := by
    intro hwaiting _ _
    have hcommit := hawake hwaiting
    have happlied := h.applied_le
    rw [show s.commitIndex = s.lastApplied by omega]

theorem read (h : InStep base s) (hreading : s.point = .reading) {e : LogEntry}
    (he : s.held[s.lastApplied - base]? = some e) (hindex : e.index = s.lastApplied + 1)
    {point : ApplyPoint} (hpoint : point = .testing ∨ point = .called e.index) :
    InStep base { s with
      lastApplied := s.lastApplied + 1
      applied := s.applied ++ if e.config then [] else [(s.lastApplied + 1, e)]
      point := point } where
  indexed := h.indexed
  entries := h.entries
  base_le := h.base_le
  dropped_le := Nat.le_succ_of_le h.dropped_le
  applied_le := h.reading hreading
  commit_le := h.commit_le
  reading := by
    rintro rfl
    simp at hpoint
  called := by
    rintro i (rfl | rfl)
    · simp only [reduceCtorEq, ApplyPoint.called.injEq, false_or] at hpoint
      rw [hpoint, hindex]
    · simp at hpoint
  sound := h.sound
  applied := by
    have hbase := h.base_le.trans h.dropped_le
    dsimp only
    rw [handed_succ hbase he, h.applied, hindex]
  awake := by
    rintro rfl
    simp at hpoint

theorem drop (h : InStep base s) {i : Nat} (hpoint : s.point = .dropping i) :
    InStep base { s with log := (s.log.drop i).getD s.log, point := .testing } := by
  have hsame : InStep base { s with point := .testing } :=
    h.move s.queue (by simp) (by simp) (by simp)
  cases hdrop : s.log.drop i with
  | none => exact hsame
  | some new =>
      obtain ⟨k, term, hi, rfl⟩ := h.consecutive.drop_eq hdrop
      have hlast := h.called i (.inr hpoint)
      have hbase := h.base_le
      refine { hsame with entries := ?_, base_le := ?_, dropped_le := ?_ }
      · dsimp only [Option.getD_some, EntryLogger.copyStates]
        rw [h.entries, List.drop_drop]
        congr 1
        omega
      · dsimp only [Option.getD_some, EntryLogger.copyStates]
        omega
      · dsimp only [Option.getD_some, EntryLogger.copyStates]
        omega

theorem loop (h : InStep base s) (hloop : s.loop = some t) : InStep base t := by
  unfold Applying.loop at hloop
  cases hpoint : s.point with
  | waiting =>
      simp only [hpoint] at hloop
      split at hloop
      · cases hloop
      · cases hloop
        refine h.move _ ?_ ?_ ?_ <;> split <;> simp
  | testing =>
      simp only [hpoint] at hloop
      cases hloop
      refine h.move s.queue ?_ ?_ ?_
      · split <;> simp_all
      · split <;> simp
      · split <;> simp_all
  | reading =>
      obtain ⟨e, hget, he, hindex⟩ := h.get_next hpoint
      simp only [hpoint, hget] at hloop
      split at hloop
      · rename_i hconfig
        cases hloop
        have hread := h.read hpoint he hindex (.inl rfl)
        rwa [if_pos hconfig, List.append_nil] at hread
      · rename_i hconfig
        cases hloop
        have hread := h.read hpoint he hindex (.inr rfl)
        rwa [if_neg hconfig] at hread
  | called i =>
      simp only [hpoint] at hloop
      cases hloop
      have hi := h.called i (.inl hpoint)
      refine h.move s.queue ?_ ?_ ?_
      · split <;> simp
      · split <;> simp_all
      · split <;> simp
  | dropping i =>
      simp only [hpoint] at hloop
      cases hloop
      exact h.drop hpoint
  | ended =>
      simp only [hpoint] at hloop
      cases hloop

theorem append (h : InStep base s) {batch : List LogEntry}
    (hbatch : (s.log.append batch).Consecutive) :
    InStep base { s with log := s.log.append batch, held := s.held ++ batch } where
  indexed := by
    intro k e he
    have hbase := h.base_le
    have hlast := h.dropped_le.trans (h.applied_le.trans h.commit_le)
    rcases Nat.lt_or_ge k s.held.length with hk | hk
    · rw [List.getElem?_append_left hk] at he
      exact h.indexed k e he
    · rw [List.getElem?_append_right hk] at he
      have hget : (s.log.append batch).entries[s.log.entries.length + (k - s.held.length)]? =
          some e := by
        dsimp only [EntryLogger.append]
        rw [List.getElem?_append_right (by omega), Nat.add_sub_cancel_left, he]
      have hindex := hbatch _ e hget
      rw [h.entries, List.length_drop] at hindex
      dsimp only [EntryLogger.append] at hindex
      omega
  entries := by
    have hlast := h.dropped_le.trans (h.applied_le.trans h.commit_le)
    dsimp only [EntryLogger.append]
    rw [h.entries, List.drop_append_of_le_length (by omega)]
  base_le := h.base_le
  dropped_le := h.dropped_le
  applied_le := h.applied_le
  commit_le := by
    have := h.commit_le
    dsimp only
    rw [List.length_append]
    omega
  reading := h.reading
  called := h.called
  sound := h.sound
  applied := by
    dsimp only
    rw [handed_append (h.applied_le.trans h.commit_le)]
    exact h.applied
  awake := by
    intro hwaiting hqueue hpushes
    dsimp only
    rw [handed_append h.commit_le, handed_append (h.applied_le.trans h.commit_le)]
    exact h.awake hwaiting hqueue hpushes

theorem truncate (h : InStep base s) {i : Nat} (hi : s.commitIndex < i) {log : EntryLogger}
    (hchop : s.log.chop i = some log) :
    InStep base { s with log := log, held := s.held.filter (·.index < i) } := by
  obtain ⟨hlast, hentries⟩ := EntryLogger.chop_entries hchop
  have hbase := h.base_le
  have hcommit := h.commit_le
  have hdropped := h.dropped_le
  have happlied := h.applied_le
  rw [filter_below h.indexed]
  exact {
    indexed := by
      intro k e he
      rw [List.getElem?_take] at he
      split at he
      · exact h.indexed k e he
      · cases he
    entries := by
      dsimp only
      rw [hentries, hlast, h.entries, List.take_drop]
      congr 2
      omega
    base_le := hlast ▸ hbase
    dropped_le := hlast ▸ hdropped
    applied_le := happlied
    commit_le := by
      dsimp only
      rw [List.length_take]
      omega
    reading := h.reading
    called := h.called
    sound := h.sound
    applied := by
      dsimp only
      rw [handed_take (by omega)]
      exact h.applied
    awake := by
      intro hwaiting hqueue hpushes
      dsimp only
      rw [handed_take (by omega), handed_take (by omega)]
      exact h.awake hwaiting hqueue hpushes }

theorem step (h : InStep base s) {e : ApplyEvent} (hstep : s.step e = some t) : InStep base t := by
  cases e with
  | raise index =>
      simp only [Applying.step] at hstep
      split at hstep
      · rename_i hindex
        cases hstep
        exact { h with
          applied_le := h.applied_le.trans hindex.1
          commit_le := hindex.2.trans h.lastEntryIndex_eq.le
          reading := fun hreading => Nat.lt_of_lt_of_le (h.reading hreading) hindex.1
          awake := by simp }
      · cases hstep
  | push =>
      simp only [Applying.step] at hstep
      split at hstep
      · cases hstep
        exact { h with awake := by simp }
      · cases hstep
  | stop =>
      cases hstep
      exact { h with awake := by simp }
  | loop =>
      simp only [Applying.step, h.sound] at hstep
      exact h.loop hstep
  | append batch =>
      simp only [Applying.step] at hstep
      split at hstep
      · rename_i hbatch
        cases hstep
        exact h.append hbatch
      · cases hstep
  | truncate index =>
      simp only [Applying.step] at hstep
      split at hstep
      · rename_i hindex
        obtain ⟨log, hchop, rfl⟩ := Option.map_eq_some_iff.mp hstep
        exact h.truncate hindex hchop
      · cases hstep

end InStep

/-! ## Runs -/

theorem inStep_started (h : Started s) : InStep s.log.lastIndex s := by
  cases h with
  | bootstrap compaction servers =>
      cases servers with
      | none => constructor <;> simp [bootstrap, handed, EntryLogger.append]
      | some config =>
          constructor <;>
            simp [bootstrap, handed, EntryLogger.append, EntryLogger.makeEntry,
              List.getElem?_cons]
  | restart compaction h =>
      exact {
        indexed := h
        entries := by simp [restart]
        base_le := le_rfl
        dropped_le := le_rfl
        applied_le := le_rfl
        commit_le := Nat.le_add_right _ _
        reading := by simp [restart]
        called := by simp [restart]
        sound := rfl
        applied := by simp [restart, handed]
        awake := fun _ _ _ => rfl }

def dataEntries (held : List LogEntry) (first last : Nat) : List (Nat × LogEntry) :=
  (held.filter fun e => !e.config ∧ first < e.index ∧ e.index ≤ last).map fun e => (e.index, e)

theorem dataEntries_eq {held : List LogEntry}
    (hindexed : ∀ k e, held[k]? = some e → e.index = base + k + 1) (last : Nat) :
    dataEntries held base last = handed held base last := by
  unfold dataEntries handed
  have hcut : held.take (last - base) = held.filter (·.index < last + 1) := by
    rw [filter_below hindexed]
    congr 1
    omega
  rw [hcut, List.filter_filter]
  congr 1
  apply List.filter_congr
  intro e he
  obtain ⟨k, hk⟩ := List.mem_iff_getElem?.mp he
  have := hindexed k e hk
  simp only [Bool.and_eq_decide, decide_eq_decide, Bool.not_eq_true']
  constructor
  · rintro ⟨hconfig, -, hle⟩
    exact ⟨hconfig, by simpa using Nat.lt_succ_of_le hle⟩
  · rintro ⟨hconfig, hlt⟩
    have : e.index < last + 1 := by simpa using hlt
    exact ⟨hconfig, by omega, by omega⟩

/--
The loop reads no missing entry.  It has handed over the data entries up to
`last_applied`, each once and in order, and those up to the commit index
whenever it waits on an empty queue and no push is to come.
-/
theorem applied_once {start s : Applying} {es : List ApplyEvent} (hstart : Started start)
    (hrun : run step start es = some s) :
    s.faulted = false ∧
    (∀ k e, s.held[k]? = some e → e.index = start.log.lastIndex + k + 1) ∧
    s.log.entries = s.held.drop (s.log.lastIndex - start.log.lastIndex) ∧
    s.lastApplied ≤ s.commitIndex ∧ s.commitIndex ≤ start.log.lastIndex + s.held.length ∧
    s.applied = dataEntries s.held start.lastApplied s.lastApplied ∧
    (s.point = .waiting → s.queue = [] → s.pushes = 0 →
      s.applied = dataEntries s.held start.lastApplied s.commitIndex) := by
  have h : InStep start.log.lastIndex s :=
    run_preserves (fun _ _ _ h hstep => h.step hstep) (inStep_started hstart) hrun
  have hfirst : start.lastApplied = start.log.lastIndex := by
    cases hstart <;> rfl
  have happlied : s.applied = dataEntries s.held start.lastApplied s.lastApplied := by
    rw [hfirst, dataEntries_eq h.indexed]
    exact h.applied
  refine ⟨h.sound, h.indexed, h.entries, h.applied_le, h.commit_le, happlied, ?_⟩
  intro hwaiting hqueue hpushes
  rw [hfirst, dataEntries_eq h.indexed, h.awake hwaiting hqueue hpushes]
  exact h.applied

def compactedAway : List ApplyEvent :=
  let e : LogEntry :=
    { term := 1, index := 2, data := ascii "set k v", config := false, prevCfg := 0 }
  [.append [e], .raise 2, .push] ++ List.replicate 8 .loop

theorem applied_once_compacted :
    ∃ s, run step (bootstrap true (some (ascii "a:1"))) compactedAway = some s ∧
      s.log.entries = [] ∧ s.applied = dataEntries s.held 0 2 := by
  have hrun := (Option.some_get (show (run step (bootstrap true (some (ascii "a:1")))
    compactedAway).isSome by decide)).symm
  refine ⟨_, hrun, by decide, ?_⟩
  exact (applied_once (.bootstrap true _) hrun).2.2.2.2.2.2 (by decide) (by decide) (by decide)

end Applying

/-! ## The functions of the server -/

namespace Raft

variable {s : Raft}

def applyPoint (s : Raft) : ApplyPoint :=
  match s.callback with
  | some index => .called index
  | none => if s.draining then .testing else .waiting

def applying (s : Raft) (held : List LogEntry) : Applying where
  toReplica := s.toReplica
  compaction := s.logCompactionEnabled
  queue := List.replicate s.wakeUps false
  pushes := 0
  point := s.applyPoint
  faulted := s.faulted
  held := held

/-! Each function of a server is a run of the steps of its loop. -/

theorem applying_commitTo {i : Nat} (hlo : s.commitIndex ≤ i) (hhi : i ≤ s.log.lastEntryIndex)
    (held : List LogEntry) : run Applying.step (s.applying held) [.raise i, .push] =
      some ((s.commitTo i).applying held) := by
  have hqueue : ((s.commitTo i).applying held).queue = List.replicate s.wakeUps false ++ [false] :=
    List.replicate_succ'
  have hstep : (s.applying held).step (.raise i) =
      some { s.applying held with commitIndex := i, pushes := 1 } :=
    if_pos ⟨hlo, hhi⟩
  rw [run, hstep, Option.bind_some, run, Applying.step, if_pos Nat.one_pos, Option.bind_some, run,
    Option.some.injEq]
  exact congrArg (fun queue => { (s.commitTo i).applying held with queue := queue }) hqueue.symm

theorem applying_popCommitted (held : List LogEntry) (hsound : s.faulted = false) :
    ∃ es, run Applying.step (s.applying held) es = some (s.popCommitted.applying held) := by
  unfold popCommitted
  split
  · exact ⟨[], rfl⟩
  · rename_i hready
    simp only [not_or, Option.not_isSome_iff_eq_none] at hready
    obtain ⟨hdraining, hcallback, hwakeUps⟩ := hready
    obtain ⟨n, hn⟩ := Nat.exists_eq_succ_of_ne_zero hwakeUps
    refine ⟨[.loop], ?_⟩
    simp [run, Applying.step, Applying.loop, applying, applyPoint, hdraining, hcallback, hn, hsound,
      List.replicate_succ]

theorem applying_applyNext (held : List LogEntry) (hsound : s.faulted = false)
    (hdraining : s.draining = true) (hcallback : s.callback = none)
    (hget : s.lastApplied < s.commitIndex → (s.log.get (s.lastApplied + 1)).isSome) :
    ∃ es, run Applying.step (s.applying held) es = some (s.applyNext.applying held) := by
  unfold applyNext
  rw [if_neg (by simp [hdraining, hcallback])]
  split
  · rename_i hdone
    refine ⟨[.loop], ?_⟩
    simp [run, Applying.step, Applying.loop, applying, applyPoint, hdraining, hcallback, hsound,
      hdone]
  · rename_i hleft
    obtain ⟨e, he⟩ := Option.isSome_iff_exists.mp (hget (by omega))
    refine ⟨[.loop, .loop], ?_⟩
    cases hconfig : e.config <;>
      simp [run, Applying.step, Applying.loop, applying, applyPoint, hdraining, hcallback, hsound,
        he, hconfig, Nat.lt_of_not_le hleft]

theorem applying_compact (held : List LogEntry) (hsound : s.faulted = false)
    (hdraining : s.draining = true) :
    ∃ es, run Applying.step (s.applying held) es = some (s.compact.applying held) := by
  unfold compact
  cases hcallback : s.callback with
  | none =>
      refine ⟨[], ?_⟩
      simp [run]
  | some index =>
      by_cases hdrop : s.logCompactionEnabled ∧ index = s.commitIndex
      · refine ⟨[.loop, .loop], ?_⟩
        simp [run, Applying.step, Applying.loop, applying, applyPoint, hdraining, hcallback, hsound,
          hdrop]
      · refine ⟨[.loop], ?_⟩
        simp [run, Applying.step, Applying.loop, applying, applyPoint, hdraining, hcallback, hsound,
          hdrop]

end Raft

end Draft
