import Draft.Kv.Server
import Draft.Raft.Cluster
import Draft.Raft.Retention
import Draft.Raft.Simulation

/-!
# Snapshots and compaction

The snapshot file is written when a timer expires, and the log is compacted when
the last committed entry has been applied.  What a server loses when it stops
is what it applied after the last snapshot and has dropped from its log.
-/

namespace Draft

open Consensus Raft

/-! ## Full logs cut in two -/

theorem Indexed.mem_take {full : List Entry} (h : Indexed full) {k : Nat} {e : Entry}
    (he : e ∈ full.take k) : e.index ≤ k := by
  obtain ⟨i, hi⟩ := List.mem_iff_getElem?.mp he
  rw [List.getElem?_take] at hi
  split at hi
  · have := h i e hi
    omega
  · cases hi

theorem Indexed.mem_drop {full : List Entry} (h : Indexed full) {k : Nat} {e : Entry}
    (he : e ∈ full.drop k) : k < e.index := by
  obtain ⟨i, hi⟩ := List.mem_iff_getElem?.mp he
  rw [List.getElem?_drop] at hi
  have := h _ e hi
  omega

theorem Indexed.filter_drop {full : List Entry} (h : Indexed full) {b a : Nat} (hle : b ≤ a) :
    (full.drop b).filter (·.index ≤ a) = (full.drop b).take (a - b) := by
  have hsplit : full.drop b = (full.drop b).take (a - b) ++ full.drop a := by
    conv_lhs => rw [← List.take_append_drop (a - b) (full.drop b)]
    rw [List.drop_drop, Nat.add_sub_cancel' hle]
  have hlow : ∀ e ∈ (full.drop b).take (a - b), decide (e.index ≤ a) = true := by
    intro e he
    rw [← List.drop_take] at he
    exact decide_eq_true (h.mem_take (List.mem_of_mem_drop he))
  have hhigh : ∀ e ∈ full.drop a, ¬ decide (e.index ≤ a) = true := by
    intro e he
    have := h.mem_drop he
    simpa using this
  conv_lhs => rw [hsplit, List.filter_append, List.filter_eq_self.mpr hlow,
    List.filter_eq_nil_iff.mpr hhigh, List.append_nil]

namespace Kv

/-- What happens at one server, as far as its database can tell. -/
inductive LocalEvent where
  | role (role : Role)
  /-- An entry of another leader. -/
  | receive (data : Bytes) (term : Nat) (config : Bool)
  | command (session : Nat) (cmd : Command)
  | appendCommand
  | commit (index : Nat)
  | popCommitted
  | applyNext
  | compact
  | snapshot
  deriving DecidableEq, Repr

namespace Server

variable {s t : Server} {full : List Entry}

def step (s : Server) : LocalEvent → Option Server
  | .role role => some { s with raft := { s.raft with role := role } }
  | .receive data term config =>
      some { s with raft := { s.raft with
        log := s.raft.log.append
          [s.raft.log.makeEntry data (s.raft.log.lastEntryIndex + 1) term config] } }
  | .command session cmd =>
      if s.store.appending = none then
        some { s with store := s.store.handleCommand s.raft session cmd }
      else none
  | .appendCommand => some s.appendCommand
  | .commit index =>
      if s.raft.commitIndex ≤ index ∧ index ≤ s.raft.log.lastEntryIndex then
        some { s with raft := s.raft.commitTo index }
      else none
  | .popCommitted => some { s with raft := s.raft.popCommitted }
  | .applyNext => some s.applyNext
  | .compact => some { s with raft := s.raft.compact }
  | .snapshot => some { s with store := s.store.takeSnapshot s.raft.applied.length }

/-! ## Stopping -/

def appliedTexts (s : Server) : List Bytes := s.raft.applied.map (·.2.data)

def kept (s : Server) : List Bytes :=
  (s.raft.log.entries.filter fun e => e.index ≤ s.raft.lastApplied && !e.config).map (·.data)

def dropped (s : Server) : List Bytes :=
  (s.raft.applied.filter (·.1 ≤ s.raft.log.lastIndex)).map (·.2.data)

def lost (s : Server) : List Bytes :=
  ((s.raft.applied.drop s.store.taken).filter (·.1 ≤ s.raft.log.lastIndex)).map (·.2.data)

def loaded (s : Server) : Database := s.store.snapshot.getD .empty

/-- The database after a stop, once the log has been applied as far as before. -/
def rebuilt (s : Server) : Database := s.loaded.restore s.kept

/--
A key of a lost entry is in an entry that is still there, or the dropped entries
leave it as it is in the snapshot.
-/
def Covered (s : Server) : Prop :=
  ∀ u ∈ s.lost.filterMap Database.change,
    u.1 ∈ (s.kept.filterMap Database.change).map Prod.fst ∨
      s.loaded u.1 = Database.empty.restore s.dropped u.1

instance (s : Server) : Decidable s.Covered := by
  unfold Covered
  infer_instance

def Heard (s : Server) : LocalEvent → Prop
  | .applyNext => ∀ e ∈ s.raft.passes, ∀ w ∈ s.store.find e.index,
      PlainCommand w.cmd ∧ e.data = logText w.cmd
  | _ => True

instance (s : Server) : (e : LocalEvent) → Decidable (s.Heard e)
  | .applyNext => by unfold Heard; infer_instance
  | .role _ | .receive .. | .command .. | .appendCommand | .commit _ | .popCommitted | .compact
  | .snapshot => isTrue trivial

/-! ## The records of a server -/

/-- What was applied is the log up to the last applied index, compacted below it. -/
structure Recorded (full : List Entry) (s : Server) : Prop where
  logged : s.raft.Logged full
  base_le : s.raft.log.lastIndex ≤ s.raft.lastApplied
  callback : ∀ i ∈ s.raft.callback, i ≤ s.raft.lastApplied
  applied : (s.raft.applied.map fun a => (a.1, a.2.toEntry)) =
    ((full.take s.raft.lastApplied).filter (!·.config)).map fun e => (e.index, e)
  db : s.store.db = Database.empty.restore s.appliedTexts
  taken_le : s.store.taken ≤ s.raft.applied.length
  loaded : s.loaded = Database.empty.restore (s.appliedTexts.take s.store.taken)

structure SameData (s t : Store) : Prop where
  db : t.db = s.db
  snapshot : t.snapshot = s.snapshot
  taken : t.taken = s.taken

private theorem sameData_handleCommand (s : Store) (raft : Raft) (session : Nat) (cmd : Command) :
    SameData s (s.handleCommand raft session cmd) := by
  unfold Store.handleCommand
  split
  · exact ⟨rfl, rfl, rfl⟩
  · split <;> exact ⟨rfl, rfl, rfl⟩
  · split <;> exact ⟨rfl, rfl, rfl⟩
  · exact ⟨rfl, rfl, rfl⟩

private theorem sameData_waitFor (s : Store) (index : Nat) : SameData s (s.waitFor index) := by
  unfold Store.waitFor
  dsimp only
  repeat' split
  all_goals exact ⟨rfl, rfl, rfl⟩

theorem Recorded.grow (h : Recorded full s) {rest : List Entry}
    (hlogged : t.raft.Logged (full ++ rest)) (hbase : t.raft.log.lastIndex = s.raft.log.lastIndex)
    (hlast : t.raft.lastApplied = s.raft.lastApplied) (happlied : t.raft.applied = s.raft.applied)
    (hcallback : t.raft.callback = s.raft.callback) (hstore : SameData s.store t.store) :
    Recorded (full ++ rest) t where
  logged := hlogged
  base_le := by
    rw [hbase, hlast]
    exact h.base_le
  callback := by
    rw [hcallback, hlast]
    exact h.callback
  applied := by
    have hle := h.logged.applied_le.trans h.logged.commit_le
    rw [happlied, hlast, List.take_append_of_le_length hle]
    exact h.applied
  db := by
    rw [hstore.db, appliedTexts, happlied]
    exact h.db
  taken_le := by
    rw [hstore.taken, happlied]
    exact h.taken_le
  loaded := by
    rw [Server.loaded, hstore.snapshot, hstore.taken, appliedTexts, happlied]
    exact h.loaded

theorem Recorded.same (h : Recorded full s) (hlogged : t.raft.Logged full)
    (hbase : t.raft.log.lastIndex = s.raft.log.lastIndex)
    (hlast : t.raft.lastApplied = s.raft.lastApplied) (happlied : t.raft.applied = s.raft.applied)
    (hcallback : t.raft.callback = s.raft.callback) (hstore : SameData s.store t.store) :
    Recorded full t := by
  have hgrown : Recorded (full ++ []) t :=
    h.grow (by simpa using hlogged) hbase hlast happlied hcallback hstore
  simpa using hgrown

private theorem recorded_append (h : Recorded full s) {data : Bytes} {term : Nat} {config : Bool}
    (hlog : t.raft.toReplica = { s.raft.toReplica with
      log := s.raft.log.append
        [s.raft.log.makeEntry data (s.raft.log.lastEntryIndex + 1) term config] })
    (hcallback : t.raft.callback = s.raft.callback) (hstore : SameData s.store t.store) :
    ∃ full', Recorded full' t := by
  have hlogged : t.raft.Logged (full ++
      [{ term := term, index := full.length + 1, data := data, config := config }]) := by
    rw [hlog]
    refine ⟨h.logged.holds.append_entry data term config, h.logged.base_le, ?_,
      h.logged.applied_le⟩
    rw [List.length_append]
    exact Nat.le_add_right_of_le h.logged.commit_le
  exact ⟨_, h.grow hlogged (by rw [hlog]; rfl) (by rw [hlog]) (by rw [hlog]) hcallback hstore⟩

theorem take_succ_of_get {log : EntryLogger} (h : log.Holds full) {i : Nat} {e : LogEntry}
    (he : log.get (i + 1) = some e) : full.take (i + 1) = full.take i ++ [e.toEntry] ∧
      e.index = i + 1 := by
  have hmap := h.get_succ_map i
  rw [he] at hmap
  split at hmap
  · cases hmap
  · have hfull : full[i]? = some e.toEntry := hmap.symm
    exact ⟨by rw [List.take_add_one, hfull]; rfl, h.indexed i _ hfull⟩

private theorem recorded_applyNext (h : Recorded full s) (hheard : s.Heard .applyNext) :
    Recorded full s.applyNext := by
  have hreplica : ∀ u : Raft, u.log = s.raft.log → u.commitIndex = s.raft.commitIndex →
      u.lastApplied ≤ s.raft.commitIndex → u.Logged full := by
    intro u hlog hcommit hle
    refine ⟨hlog ▸ h.logged.holds, ?_, ?_, ?_⟩
    · rw [hlog, hcommit]
      exact h.logged.base_le
    · rw [hcommit]
      exact h.logged.commit_le
    · rw [hcommit]
      exact hle
  cases hpasses : s.raft.passes with
  | none =>
      have hstore : s.applyNext = { raft := s.raft.applyNext, store := s.store } := by
        simp only [applyNext, hpasses]
      obtain ⟨happlied, hcallback, hlast⟩ := applyNext_none hpasses
      obtain ⟨lastApplied, applied, hsame, -⟩ := applyNext_replica s.raft
      have hlog : s.raft.applyNext.log = s.raft.log := by rw [hsame]
      have hcommit : s.raft.applyNext.commitIndex = s.raft.commitIndex := by rw [hsame]
      rw [hstore]
      rcases hlast with hlast | ⟨hlt, hlast, hconfig⟩
      · refine h.same (hreplica _ hlog hcommit ?_) (congrArg EntryLogger.lastIndex hlog) hlast
          happlied hcallback ⟨rfl, rfl, rfl⟩
        dsimp only
        rw [hlast]
        exact h.logged.applied_le
      · refine ⟨hreplica _ hlog hcommit (hlast.trans_le hlt), ?_, ?_, ?_, ?_, ?_, ?_⟩
        · dsimp only
          rw [hlog, hlast]
          exact Nat.le_succ_of_le h.base_le
        · dsimp only
          rw [hcallback, hlast]
          exact fun i hi => Nat.le_succ_of_le (h.callback i hi)
        · dsimp only
          rw [happlied, hlast, h.applied]
          have hlength := h.logged.commit_le
          have hget : ∃ e, s.raft.log.get (s.raft.lastApplied + 1) = some e := by
            have hmap := h.logged.holds.get_succ_map s.raft.lastApplied
            rw [if_neg (by have := h.base_le; omega),
              List.getElem?_eq_getElem (by omega)] at hmap
            obtain ⟨e, he, -⟩ := Option.map_eq_some_iff.mp hmap
            exact ⟨e, he⟩
          obtain ⟨e, he⟩ := hget
          rw [(take_succ_of_get h.logged.holds he).1, List.filter_append]
          simp [hconfig e he]
        · simp only [appliedTexts, happlied]
          exact h.db
        · simp only [happlied]
          exact h.taken_le
        · simp only [Server.loaded, appliedTexts, happlied]
          exact h.loaded
  | some e =>
      obtain ⟨hlt, hget, hconfig, -, hraft⟩ := applyNext_some hpasses
      have hdb := Store.onLogEntryCommitted_db (s := s.store) (hheard e hpasses)
      have hstore : s.applyNext =
          { raft := s.raft.applyNext, store := s.store.onLogEntryCommitted e } := by
        simp only [applyNext, hpasses]
      have hfile : (s.store.onLogEntryCommitted e).snapshot = s.store.snapshot ∧
          (s.store.onLogEntryCommitted e).taken = s.store.taken := by
        unfold Store.onLogEntryCommitted Store.insert
        repeat' split
        all_goals exact ⟨rfl, rfl⟩
      obtain ⟨htake, hindex⟩ := take_succ_of_get h.logged.holds hget
      have htexts : s.applyNext.appliedTexts = s.appliedTexts ++ [e.data] := by
        rw [hstore, appliedTexts, hraft]
        simp [appliedTexts]
      have hlength : s.store.taken ≤ s.appliedTexts.length := by
        simpa [appliedTexts] using h.taken_le
      refine ⟨?_, ?_, ?_, ?_, ?_, ?_, ?_⟩
      · rw [hstore, hraft]
        exact hreplica _ rfl rfl hlt
      · rw [hstore, hraft]
        exact Nat.le_succ_of_le h.base_le
      · rw [hstore, hraft]
        intro i hi
        obtain rfl := Option.some.inj hi
        exact hindex.le
      · rw [hstore, hraft]
        dsimp only
        rw [List.map_append, h.applied, htake, List.filter_append, List.map_append]
        simp [hconfig, hindex]
      · rw [htexts, Database.restore_append, ← h.db, hstore]
        exact hdb
      · rw [hstore, hraft]
        dsimp only
        rw [hfile.2, List.length_append]
        exact Nat.le_add_right_of_le h.taken_le
      · rw [htexts, hstore]
        dsimp only [Server.loaded]
        rw [hfile.1, hfile.2, List.take_append_of_le_length hlength]
        exact h.loaded

private theorem recorded_compact (h : Recorded full s) :
    Recorded full { s with raft := s.raft.compact } := by
  have kept : Recorded full { s with raft := { s.raft with callback := none } } :=
    ⟨h.logged, h.base_le, by simp, h.applied, h.db, h.taken_le, h.loaded⟩
  unfold Raft.compact
  split
  · exact h
  rename_i index hindex
  split
  · rename_i hcond
    obtain ⟨hholds, hbase⟩ := h.logged.holds.drop_getD h.logged.commit_le
    rw [← hcond.2] at hholds hbase
    have hle := h.callback index hindex
    exact ⟨⟨hholds, hbase.trans (max_le h.logged.base_le hcond.2.le), h.logged.commit_le,
      h.logged.applied_le⟩, hbase.trans (max_le h.base_le hle), by simp, h.applied, h.db,
      h.taken_le, h.loaded⟩
  · exact kept

private theorem recorded_step {e : LocalEvent} (h : Recorded full s) (hheard : s.Heard e)
    (hstep : s.step e = some t) : ∃ full', Recorded full' t := by
  cases e with
  | role role =>
      cases hstep
      exact ⟨full, h.logged, h.base_le, h.callback, h.applied, h.db, h.taken_le, h.loaded⟩
  | receive data term config =>
      cases hstep
      exact recorded_append h rfl rfl ⟨rfl, rfl, rfl⟩
  | command session cmd =>
      simp only [step, Option.ite_none_right_eq_some, Option.some.injEq] at hstep
      rw [← hstep.2]
      exact ⟨full, h.same h.logged rfl rfl rfl rfl (sameData_handleCommand ..)⟩
  | appendCommand =>
      cases hstep
      unfold appendCommand
      split
      · exact ⟨full, h⟩
      · unfold Raft.append
        split
        · exact ⟨full, h.same h.logged rfl rfl rfl rfl (sameData_waitFor ..)⟩
        · exact recorded_append h rfl rfl (sameData_waitFor ..)
  | commit index =>
      simp only [step, Option.ite_none_right_eq_some, Option.some.injEq] at hstep
      obtain ⟨⟨hle, hlast⟩, rfl⟩ := hstep
      rw [h.logged.holds.lastEntryIndex_eq] at hlast
      refine ⟨full, h.same ?_ rfl rfl rfl rfl ⟨rfl, rfl, rfl⟩⟩
      exact ⟨h.logged.holds, h.logged.base_le.trans hle, hlast, h.logged.applied_le.trans hle⟩
  | popCommitted =>
      cases hstep
      unfold Raft.popCommitted
      split
      · exact ⟨full, h⟩
      · exact ⟨full, h.same h.logged rfl rfl rfl rfl ⟨rfl, rfl, rfl⟩⟩
  | applyNext =>
      cases hstep
      exact ⟨full, recorded_applyNext h hheard⟩
  | compact =>
      cases hstep
      exact ⟨full, recorded_compact h⟩
  | snapshot =>
      cases hstep
      refine ⟨full, h.logged, h.base_le, h.callback, h.applied, h.db, le_rfl, ?_⟩
      have hall : s.appliedTexts.take s.raft.applied.length = s.appliedTexts := by
        simp [appliedTexts]
      change s.store.db = Database.empty.restore (s.appliedTexts.take s.raft.applied.length)
      rw [hall]
      exact h.db

/-! ## What is lost -/

theorem Recorded.split (h : Recorded full s) :
    ∃ before after, s.raft.applied = before ++ after ∧
      (∀ a ∈ before, a.1 ≤ s.raft.log.lastIndex) ∧ (∀ a ∈ after, s.raft.log.lastIndex < a.1) ∧
      after.map (·.2.data) = s.kept := by
  have hidx := h.logged.holds.indexed
  have happlied := h.applied
  obtain ⟨n, hn⟩ := Nat.exists_eq_add_of_le h.base_le
  rw [hn, List.take_add, List.filter_append, List.map_append, List.map_eq_append_iff] at happlied
  obtain ⟨before, after, hsplit, hbefore, hafter⟩ := happlied
  have hmem : ∀ {l : List (Nat × LogEntry)} {es : List Entry} {a : Nat × LogEntry},
      l.map (fun a => (a.1, a.2.toEntry)) = (es.filter (!·.config)).map (fun e => (e.index, e)) →
      a ∈ l → ∃ e ∈ es, e.index = a.1 := by
    intro l es a hl ha
    have hin : (a.1, a.2.toEntry) ∈ (es.filter (!·.config)).map fun e => (e.index, e) :=
      hl ▸ List.mem_map_of_mem ha
    obtain ⟨e, he, heq⟩ := List.mem_map.mp hin
    exact ⟨e, List.mem_of_mem_filter he, congrArg Prod.fst heq⟩
  refine ⟨before, after, hsplit, fun a ha => ?_, fun a ha => ?_, ?_⟩
  · obtain ⟨e, he, hea⟩ := hmem hbefore ha
    exact hea ▸ hidx.mem_take he
  · obtain ⟨e, he, hea⟩ := hmem hafter ha
    exact hea ▸ hidx.mem_drop (List.mem_of_mem_take he)
  · have hdata := congrArg (List.map fun a : Nat × Entry => a.2.data) hafter
    simp only [List.map_map] at hdata
    have hentries : (s.raft.log.entries.filter fun e =>
          e.index ≤ s.raft.lastApplied && !e.config).map LogEntry.toEntry =
        ((full.drop s.raft.log.lastIndex).take n).filter (!·.config) := by
      have hfilter := hidx.filter_drop h.base_le
      rw [hn, Nat.add_sub_cancel_left] at hfilter
      rw [← hfilter, List.filter_filter, ← h.logged.holds.entries, List.filter_map, hn]
      congr 1
      refine List.filter_congr fun e _ => ?_
      simp [Bool.and_comm]
    have hkept := congrArg (List.map Entry.data) hentries
    rw [List.map_map] at hkept
    exact hdata.trans hkept.symm

private theorem covered_iff (h : Recorded full s) :
    s.rebuilt = Database.empty.restore s.appliedTexts ↔ s.Covered := by
  obtain ⟨before, after, happlied, hbefore, hafter, hkept⟩ := h.split
  have hall : s.appliedTexts = before.map (·.2.data) ++ s.kept := by
    rw [appliedTexts, happlied, List.map_append, hkept]
  have hcut : ∀ n, ((before ++ after).drop n).filter (·.1 ≤ s.raft.log.lastIndex) =
      before.drop n := by
    intro n
    rw [List.drop_append, List.filter_append, List.filter_eq_self.mpr, List.filter_eq_nil_iff.mpr,
      List.append_nil]
    · intro a ha
      have := hafter a (List.mem_of_mem_drop ha)
      simpa using this
    · intro a ha
      simpa using hbefore a (List.mem_of_mem_drop ha)
  have hdropped : s.dropped = before.map (·.2.data) := by
    have h0 := hcut 0
    rw [List.drop_zero, List.drop_zero] at h0
    rw [dropped, happlied, h0]
  have hlost : s.lost = s.dropped.drop s.store.taken := by
    rw [lost, happlied, hcut, hdropped, List.map_drop]
  rw [rebuilt, hall, Database.restore_append, ← hdropped, Database.restore_eq_replay,
    Database.restore_eq_replay _ s.kept, replay_eq_iff]
  constructor
  · exact fun hsame u _ => hsame u.1
  · intro hcovered k
    by_cases hk : k ∈ (s.lost.filterMap Database.change).map Prod.fst
    · obtain ⟨u, hu, rfl⟩ := List.mem_map.mp hk
      exact hcovered u hu
    -- no lost entry writes the key
    rcases Nat.le_total s.store.taken s.dropped.length with hle | hle
    · have hsame := Database.restore_take_of_notMem .empty s.dropped hle (hlost ▸ hk)
      rw [List.take_length] at hsame
      right
      rw [h.loaded, hall, ← hdropped, List.take_append_of_le_length hle, hsame]
    · by_cases hkept : k ∈ (s.kept.filterMap Database.change).map Prod.fst
      · exact .inl hkept
      · have hsame := Database.restore_take_of_notMem .empty (s.dropped ++ s.kept) hle
          (by simpa using hkept)
        rw [List.take_left] at hsame
        right
        rw [h.loaded, hall, ← hdropped, hsame]

/-! ## Runs -/

structure Fresh (full : List Entry) (s : Server) : Prop where
  holds : s.raft.log.Holds full
  base : s.raft.log.lastIndex = 0
  commit : s.raft.commitIndex = 0
  lastApplied : s.raft.lastApplied = 0
  applied : s.raft.applied = []
  callback : s.raft.callback = none
  store : s.store = .empty

private theorem Fresh.recorded (h : Fresh full s) : Recorded full s where
  logged := by
    refine ⟨h.holds, ?_, ?_, ?_⟩
    · rw [h.base]
      exact Nat.zero_le _
    · rw [h.commit]
      exact Nat.zero_le _
    · rw [h.lastApplied]
      exact Nat.zero_le _
  base_le := by
    rw [h.base]
    exact Nat.zero_le _
  callback := by simp [h.callback]
  applied := by simp [h.applied, h.lastApplied]
  db := by
    rw [h.store, appliedTexts, h.applied]
    rfl
  taken_le := by
    rw [h.store]
    exact Nat.zero_le _
  loaded := by
    rw [Server.loaded, h.store, appliedTexts, h.applied]
    rfl

/--
Wherever a server stops in a run, its database is rebuilt as it was exactly when
the entries that it lost are covered.
-/
theorem stopped_rebuilt {es : List LocalEvent} (hfresh : Fresh full s)
    (hheard : Along step Heard s es) (hrun : run step s es = some t) :
    t.rebuilt = Database.empty.restore t.appliedTexts ↔ t.Covered := by
  obtain ⟨full', h⟩ : ∃ full, Recorded full t := by
    refine run_invariant (P := fun s => ∃ full, Recorded full s) ?_ hheard ⟨_, hfresh.recorded⟩ hrun
    rintro s e t hheard ⟨full, h⟩ hstep
    exact recorded_step h hheard hstep
  exact covered_iff h

def firstStart : Server :=
  { raft := .boot
      { selfId := ascii "a:1", interfaceAddress := ascii "a:1", rpcPort := defaultRpcPort,
        serverCatchUpRounds := 10, logCompactionEnabled := true }
      { lastIndex := 0, lastTerm := 0, lastConfig := [], entries := [], cfgEntryIndex := 0 } 0 []
      { path := ascii "db", files := [], pending := [],
        fin := { path := none, position := 0, good := true, gcount := 0 }, last := [],
        dataTransferId := 0, doneTransferId := 0 }
    store := .empty }

theorem fresh_firstStart : Fresh [] firstStart := ⟨by decide, rfl, rfl, rfl, rfl, rfl, rfl⟩

/-- The snapshot is written before the log is compacted; a later entry stays in the log. -/
def savedFirst : List LocalEvent :=
  [.receive (ascii "set k v") 1 false, .commit 1, .popCommitted, .applyNext, .snapshot, .compact,
    .receive (ascii "del k") 1 false, .commit 2, .applyNext]

theorem stopped_rebuilt_saved : ∃ t, run step firstStart savedFirst = some t ∧
    t.rebuilt = Database.empty.restore t.appliedTexts ∧ t.lost = [] ∧ t.kept = [ascii "del k"] := by
  refine ⟨_, (Option.some_get (by decide)).symm, ?_, by decide, by decide⟩
  exact (stopped_rebuilt fresh_firstStart (by decide) (Option.some_get (by decide)).symm).mpr
    (by decide)

def compactedFirst : List LocalEvent :=
  [.receive (ascii "set k v") 1 false, .commit 1, .popCommitted, .applyNext, .compact]

theorem stopped_lost :
    ¬ ∀ (full : List Entry) (s t : Server) (es : List LocalEvent), Fresh full s →
      s.raft.logCompactionEnabled → Along step Heard s es → run step s es = some t →
      t.rebuilt = Database.empty.restore t.appliedTexts := by
  intro h
  have hrun := (Option.some_get (show (run step firstStart compactedFirst).isSome by decide)).symm
  have hsame := h [] _ _ _ fresh_firstStart rfl (by decide) hrun
  exact absurd (congrFun hsame (ascii "k")) (by decide)

end Server

end Kv

end Draft
