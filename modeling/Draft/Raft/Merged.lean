import Mathlib.Data.List.TakeWhile
import Draft.Foundation.ConsecutiveLog
import Draft.Raft.RunningConfig

/-!
# What a follower makes of a request

A request whose entries go on from a held entry is merged as it should be.  One
that starts at index 0 is taken by every follower, also by one whose log starts
further up; there its entries end up behind a gap.
-/

namespace Draft

open Consensus Raft

/-! ## Held and new entries -/

def heldEntries (log : EntryLogger) (entries : List Entry) : List Entry :=
  entries.takeWhile fun e => !log.entryConflicted e.index e.term && log.hasEntry e.index e.term

private theorem heldEntries_append (log : EntryLogger) (entries : List Entry) :
    heldEntries log entries ++ newEntries log entries = entries :=
  List.takeWhile_append_dropWhile

private theorem mem_heldEntries {log : EntryLogger} {entries : List Entry} {e : Entry}
    (he : e ∈ heldEntries log entries) :
    log.entryConflicted e.index e.term = false ∧ log.hasEntry e.index e.term = true := by
  have := List.mem_takeWhile_imp he
  simpa using this

def RunFrom (prev : Nat) (entries : List Entry) : Prop :=
  ∀ k e, entries[k]? = some e → e.index = prev + k + 1

private theorem runFrom_cons {prev : Nat} {e : Entry} {rest : List Entry} :
    RunFrom prev (e :: rest) ↔ e.index = prev + 1 ∧ RunFrom (prev + 1) rest := by
  constructor
  · intro h
    refine ⟨h 0 e rfl, fun k x hx => ?_⟩
    have := h (k + 1) x hx
    omega
  · rintro ⟨hfirst, hrest⟩ k x hx
    cases k with
    | zero =>
        obtain rfl : e = x := by simpa using hx
        exact hfirst
    | succ k =>
        have := hrest k x hx
        omega

theorem RunFrom.tail {prev : Nat} {e : Entry} {rest : List Entry} (h : RunFrom prev (e :: rest)) :
    e.index = prev + 1 ∧ RunFrom (prev + 1) rest := runFrom_cons.mp h

instance decidableRunFrom : (prev : Nat) → (entries : List Entry) →
    Decidable (RunFrom prev entries)
  | _, [] => isTrue fun k e he => by simp at he
  | prev, e :: rest =>
      have : Decidable (RunFrom (prev + 1) rest) := decidableRunFrom (prev + 1) rest
      decidable_of_iff _ runFrom_cons.symm

theorem RunFrom.split {prev : Nat} {before after : List Entry}
    (h : RunFrom prev (before ++ after)) :
    RunFrom prev before ∧ RunFrom (prev + before.length) after := by
  constructor
  · intro k e he
    exact h k e (by rw [List.getElem?_append_left (lt_length_of_getElem? he), he])
  · intro k e he
    have := h (before.length + k) e (by rwa [List.getElem?_append_right (by omega),
      Nat.add_sub_cancel_left])
    omega

private theorem RunFrom.lt_index {prev : Nat} {entries : List Entry} (h : RunFrom prev entries) {e : Entry}
    (he : e ∈ entries) : prev < e.index ∧ e.index ≤ prev + entries.length := by
  obtain ⟨k, hk, rfl⟩ := List.getElem_of_mem he
  have := h k _ (List.getElem?_eq_getElem hk)
  omega

private theorem newEntries_head {log : EntryLogger} {entries rest : List Entry} {e : Entry}
    (h : newEntries log entries = e :: rest) :
    log.entryConflicted e.index e.term = true ∨ log.hasEntry e.index e.term = false := by
  have hhead := List.head?_dropWhile_not
    (fun e : Entry => !log.entryConflicted e.index e.term && log.hasEntry e.index e.term) entries
  unfold newEntries at h
  rw [h] at hhead
  cases hconflict : log.entryConflicted e.index e.term with
  | true => exact .inl rfl
  | false => simpa [hconflict] using hhead

/-! ## What a merge does -/

def EntryLogger.Carries (log : EntryLogger) (e : Entry) : Prop :=
  ∃ x ∈ log.entries, x.index = e.index ∧ x.term = e.term ∧ x.data = e.data

def Conflicting (log : EntryLogger) (entries : List Entry) (e : Entry) : Prop :=
  e ∈ entries ∧ log.entryConflicted e.index e.term = true

/-- A log is updated with the entries of a request. -/
structure Updates (old : EntryLogger) (entries : List Entry) (new : EntryLogger) : Prop where
  base : new.lastIndex = old.lastIndex
  consecutive : new.Consecutive
  held : ∀ e ∈ entries, new.lastIndex < e.index → new.Carries e
  kept : ∀ x ∈ old.entries, (∀ e, Conflicting old entries e → x.index < e.index) → x ∈ new.entries
  removed : ¬ old.entries <+: new.entries ↔ ∃ e, Conflicting old entries e
  replaced : ∀ e, Conflicting old entries e → ∀ x ∈ new.entries, e.index ≤ x.index →
    x.toEntry ∈ entries

/-- The entries go on from a held one, and those that are held already have the same data. -/
def Mergeable (log : EntryLogger) (prev : Nat) (entries : List Entry) : Prop :=
  (prev ≠ 0 ∨ entries = [] ∨ log.lastIndex ≤ 1) ∧
    ∀ e ∈ heldEntries log entries, ∀ x ∈ log.entries, x.index = e.index → x.data = e.data

instance (log : EntryLogger) (prev : Nat) (entries : List Entry) :
    Decidable (Mergeable log prev entries) :=
  inferInstanceAs (Decidable (_ ∧ _))

section

variable {log new : EntryLogger} {prev prevTerm : Nat} {entries : List Entry}

private theorem Conflicting.mem_new {e : Entry} (h : Conflicting log entries e) :
    e ∈ newEntries log entries := by
  obtain ⟨he, hconflict⟩ := h
  rw [← heldEntries_append log entries] at he
  rcases List.mem_append.mp he with hheld | hnew
  · rw [(mem_heldEntries hheld).1] at hconflict
    cases hconflict
  · exact hnew

private theorem prev_bounds (h : log.Consecutive) (hprev : log.hasEntry prev prevTerm = true) :
    (prev ≠ 0 → log.lastIndex ≤ prev) ∧ prev ≤ log.lastIndex + log.entries.length := by
  by_cases h0 : prev = 0
  · simp [h0]
  · rcases (h.hasEntry_iff h0 _).mp hprev with ⟨rfl, -⟩ | ⟨x, hx, rfl, -⟩
    · omega
    · have := h.mem_bounds hx
      omega

private theorem RunFrom.held_lt (h : RunFrom prev entries) {d e : Entry}
    (hd : d ∈ heldEntries log entries) (he : e ∈ newEntries log entries) : d.index < e.index := by
  rw [← heldEntries_append log entries] at h
  obtain ⟨hheld, hnew⟩ := h.split
  have hlo := hheld.lt_index hd
  have hhi := hnew.lt_index he
  omega

private theorem newEntries_bounds (h : log.Consecutive) (hrun : RunFrom prev entries)
    (hlo : log.lastIndex ≤ prev + 1) (hhi : prev ≤ log.lastIndex + log.entries.length)
    (hbase : ∀ e ∈ entries, e.index = log.lastIndex → e.term = log.lastTerm) {e : Entry}
    {rest : List Entry} (hnew : newEntries log entries = e :: rest) :
    log.lastIndex < e.index ∧ e.index ≤ log.lastIndex + log.entries.length + 1 := by
  have happend := heldEntries_append log entries
  rw [hnew] at happend
  have hmem : e ∈ entries := by
    rw [← happend]
    simp
  rw [← happend] at hrun
  obtain ⟨hheld, hrest⟩ := hrun.split
  have hindex := hrest.tail.1
  constructor
  · by_contra hle
    have hlast : e.index = log.lastIndex := by omega
    -- an entry at the base is held, so it is not the first new one
    have hhas : log.hasEntry e.index e.term = true :=
      (h.hasEntry_iff (by omega) _).mpr (.inl ⟨hlast, hbase e hmem hlast⟩)
    rcases newEntries_head hnew with hconflict | hmissing
    · obtain ⟨x, hx, hxe, -⟩ := (h.entryConflicted_iff (by omega) _).mp hconflict
      have := h.mem_bounds hx
      omega
    · rw [hhas] at hmissing
      cases hmissing
  · cases hlen : (heldEntries log entries).length with
    | zero => omega
    | succ k =>
        have hk : k < (heldEntries log entries).length := by omega
        have hd := hheld k _ (List.getElem?_eq_getElem hk)
        have hhas := (mem_heldEntries (List.getElem_mem hk)).2
        rcases (h.hasEntry_iff (by omega) _).mp hhas with ⟨hlast, -⟩ | ⟨x, hx, hxe, -⟩
        · omega
        · have := h.mem_bounds hx
          omega

private theorem carries_held (h : log.Consecutive)
    (hsame : ∀ e ∈ heldEntries log entries, ∀ x ∈ log.entries, x.index = e.index → x.data = e.data)
    {e : Entry} (he : e ∈ heldEntries log entries) (hlo : log.lastIndex < e.index) :
    log.Carries e := by
  have hhas := (mem_heldEntries he).2
  rcases (h.hasEntry_iff (by omega) _).mp hhas with ⟨hlast, -⟩ | ⟨x, hx, hxe, hterm⟩
  · omega
  · exact ⟨x, hx, hxe, hterm, hsame e he x hx hxe⟩

private theorem updates_nothing (h : log.Consecutive) (hnew : newEntries log entries = [])
    (hsame : ∀ e ∈ heldEntries log entries, ∀ x ∈ log.entries, x.index = e.index →
      x.data = e.data) : Updates log entries log := by
  have hnone : ∀ e, ¬ Conflicting log entries e := by
    intro e he
    have := he.mem_new
    simp [hnew] at this
  have hall : heldEntries log entries = entries := by
    have := heldEntries_append log entries
    rwa [hnew, List.append_nil] at this
  constructor
  · rfl
  · exact h
  · intro e he hlo
    exact carries_held h hsame (by rwa [hall]) hlo
  · intro x hx _
    exact hx
  · simp [hnone]
  · intro e he
    exact absurd he (hnone e)

private theorem append_consecutive {kept : EntryLogger} (h : kept.Consecutive) {e : Entry}
    {rest : List Entry} (hrun : RunFrom (kept.lastIndex + kept.entries.length) (e :: rest)) :
    (kept.append (makeEntries kept (e :: rest))).Consecutive := by
  refine h.append fun k x hx => ?_
  simp only [makeEntries, List.getElem?_map, Option.map_eq_some_iff] at hx
  obtain ⟨d, hd, rfl⟩ := hx
  exact hrun k d hd

private theorem carries_made {kept : EntryLogger} {batch : List Entry} {e : Entry} (he : e ∈ batch) :
    (kept.append (makeEntries kept batch)).Carries e :=
  ⟨_, List.mem_append_right _ (List.mem_map_of_mem he), rfl, rfl, rfl⟩

private theorem updates_append (h : log.Consecutive) (hrun : RunFrom prev entries)
    (hsame : ∀ e ∈ heldEntries log entries, ∀ x ∈ log.entries, x.index = e.index →
      x.data = e.data) {e : Entry} {rest : List Entry} (hnew : newEntries log entries = e :: rest)
    (hend : e.index = log.lastIndex + log.entries.length + 1) :
    Updates log entries (log.append (makeEntries log (e :: rest))) := by
  have happend := heldEntries_append log entries
  have hrest : RunFrom (log.lastIndex + log.entries.length) (e :: rest) := by
    have hsplit := hrun
    rw [← happend, hnew] at hsplit
    have hindex := hsplit.split.2.tail.1
    rw [show log.lastIndex + log.entries.length = prev + (heldEntries log entries).length by omega]
    exact hsplit.split.2
  -- every new entry is past the end, where nothing conflicts
  have hnone : ∀ d, ¬ Conflicting log entries d := by
    intro d hd
    have hmem := hd.mem_new
    rw [hnew] at hmem
    have hpast := hrest.lt_index hmem
    obtain ⟨x, hx, hxd, -⟩ := (h.entryConflicted_iff (by omega) _).mp hd.2
    have := h.mem_bounds hx
    omega
  constructor
  · rfl
  · exact append_consecutive h hrest
  · intro d hd hlo
    rw [← happend, hnew] at hd
    rcases List.mem_append.mp hd with hheld | hmade
    · obtain ⟨x, hx, hxd⟩ := carries_held h hsame hheld hlo
      exact ⟨x, List.mem_append_left _ hx, hxd⟩
    · exact carries_made hmade
  · intro x hx _
    exact List.mem_append_left _ hx
  · simp [hnone, EntryLogger.append]
  · intro d hd
    exact absurd hd (hnone d)

private theorem updates_chop (h : log.Consecutive) (hrun : RunFrom prev entries)
    (hsame : ∀ e ∈ heldEntries log entries, ∀ x ∈ log.entries, x.index = e.index →
      x.data = e.data) {e : Entry} {rest : List Entry} (hnew : newEntries log entries = e :: rest)
    {kept : EntryLogger} (hconflict : log.entryConflicted e.index e.term = true)
    (hchop : log.chop e.index = some kept) :
    Updates log entries (kept.append (makeEntries kept (e :: rest))) := by
  have happend := heldEntries_append log entries
  have hrest : RunFrom (prev + (heldEntries log entries).length) (e :: rest) := by
    have hsplit := hrun
    rw [← happend, hnew] at hsplit
    exact hsplit.split.2
  have hindex := hrest.tail.1
  obtain ⟨x₀, hx₀, hx₀e, hx₀t⟩ := (h.entryConflicted_iff (by omega) _).mp hconflict
  have hbounds := h.mem_bounds hx₀
  obtain ⟨hlast, hkept⟩ := EntryLogger.chop_entries hchop
  have hlen : kept.entries.length = e.index - log.lastIndex - 1 := by
    rw [hkept, List.length_take]
    omega
  have hmem : ∀ x, x ∈ kept.entries ↔ x ∈ log.entries ∧ x.index < e.index := by
    intro x
    rw [hkept]
    exact h.mem_take
  have hcons : kept.Consecutive := by
    intro k x hx
    rw [hkept, List.getElem?_take, Option.ite_none_right_eq_some] at hx
    rw [hlast]
    exact h k x hx.2
  have hnewcons : (kept.append (makeEntries kept (e :: rest))).Consecutive := by
    refine append_consecutive hcons ?_
    rw [show kept.lastIndex + kept.entries.length =
      prev + (heldEntries log entries).length by omega]
    exact hrest
  have hfirst : Conflicting log entries e := by
    refine ⟨?_, hconflict⟩
    rw [← happend, hnew]
    simp
  constructor
  · exact hlast
  · exact hnewcons
  · intro d hd hlo
    change kept.lastIndex < d.index at hlo
    rw [hlast] at hlo
    rw [← happend, hnew] at hd
    rcases List.mem_append.mp hd with hheld | hmade
    · obtain ⟨x, hx, hxd⟩ := carries_held h hsame hheld hlo
      have hlt := hrun.held_lt hheld (e := e) (by simp [hnew])
      exact ⟨x, List.mem_append_left _ ((hmem x).mpr ⟨hx, by omega⟩), hxd⟩
    · exact carries_made hmade
  · intro x hx hbelow
    exact List.mem_append_left _ ((hmem x).mpr ⟨hx, hbelow e hfirst⟩)
  · refine ⟨fun _ => ⟨e, hfirst⟩, fun _ hinit => ?_⟩
    -- the old entry and the new one at the conflict would have to be the same
    have hmade : (kept.append (makeEntries kept (e :: rest))).Carries e := carries_made (by simp)
    obtain ⟨y, hy, hye, hyt, -⟩ := hmade
    have hsame := hnewcons.mem_unique (hinit.subset hx₀) hy (by omega)
    rw [hsame] at hx₀t
    exact hx₀t hyt
  · intro d hd x hx hle
    rcases List.mem_append.mp hx with hx | hx
    · have hdnew := hd.mem_new
      rw [hnew] at hdnew
      have := hrest.lt_index hdnew
      have := ((hmem x).mp hx).2
      omega
    · have hmade := (mem_makeEntries hx).1
      rw [← happend, hnew]
      exact List.mem_append_right _ hmade

/-- An entry below the base is taken for a new one, and everything ends up behind a gap. -/
theorem not_consecutive_below (h : log.Consecutive) {e : Entry} {rest : List Entry}
    (hpos : e.index ≠ 0) (hbelow : e.index < log.lastIndex)
    (hmerge : mergeEntries log (e :: rest) = some new) : ¬ new.Consecutive := by
  have hconflict : ¬ log.entryConflicted e.index e.term = true := by
    rw [h.entryConflicted_iff hpos]
    rintro ⟨x, hx, hxe, -⟩
    have := h.mem_bounds hx
    omega
  have hhas : ¬ log.hasEntry e.index e.term = true := by
    rw [h.hasEntry_iff hpos]
    rintro (⟨hlast, -⟩ | ⟨x, hx, hxe, -⟩)
    · omega
    · have := h.mem_bounds hx
      omega
  rw [mergeEntries, if_neg hconflict, if_neg hhas, Option.some.injEq] at hmerge
  subst hmerge
  intro hcons
  have hgap := hcons log.entries.length (log.makeEntry e.data e.index e.term e.config)
    (by simp [EntryLogger.append, makeEntries])
  change e.index = log.lastIndex + log.entries.length + 1 at hgap
  omega

private theorem Updates.mergeable (h : Updates log entries new) (hcons : log.Consecutive)
    (hrun : RunFrom prev entries) (hmerge : mergeEntries log entries = some new) :
    Mergeable log prev entries := by
  constructor
  · by_contra hnot
    simp only [not_or, not_not, not_le] at hnot
    obtain ⟨rfl, hne, hbase⟩ := hnot
    cases entries with
    | nil => exact hne rfl
    | cons e rest =>
        have hindex := hrun.tail.1
        exact not_consecutive_below hcons (by omega) (by omega) hmerge h.consecutive
  · intro e he x hx hxe
    have hbounds := hcons.mem_bounds hx
    have hmem : e ∈ entries := (List.takeWhile_sublist _).subset he
    have hkept := h.kept x hx fun d hd => by
      have := hrun.held_lt he hd.mem_new
      omega
    obtain ⟨y, hy, hye, -, hdata⟩ := h.held e hmem (by rw [h.base]; omega)
    rw [h.consecutive.mem_unique hkept hy (hxe.trans hye.symm), hdata]

theorem Mergeable.updates (h : Mergeable log prev entries) (hcons : log.Consecutive)
    (hprev : log.hasEntry prev prevTerm = true) (hrun : RunFrom prev entries)
    (hbase : ∀ e ∈ entries, e.index = log.lastIndex → e.term = log.lastTerm)
    (hmerge : mergeEntries log entries = some new) : Updates log entries new := by
  obtain ⟨hstart, hsame⟩ := h
  obtain ⟨hlow, hhigh⟩ := prev_bounds hcons hprev
  rcases mergeEntries_cases hmerge with ⟨hnil, rfl⟩ | ⟨e, rest, kept, hnew, rfl, hkept⟩
  · exact updates_nothing hcons hnil hsame
  have hlo : log.lastIndex ≤ prev + 1 := by
    rcases hstart with hne | hnil | hle
    · have := hlow hne
      omega
    · simp [newEntries, hnil] at hnew
    · omega
  have hbounds := newEntries_bounds hcons hrun hlo hhigh hbase hnew
  rcases hkept with ⟨hconflict, rfl⟩ | ⟨hconflict, hchop⟩
  · refine updates_append hcons hrun hsame hnew ?_
    by_contra hne
    -- an index inside the log is held or conflicts
    obtain ⟨x, hx, hxe⟩ := hcons.exists_mem hbounds.1 (by omega)
    have hhas := (newEntries_head hnew).resolve_left (by simp [hconflict])
    by_cases hterm : x.term = e.term
    · have := (hcons.hasEntry_iff (by omega) e.term).mpr (.inr ⟨x, hx, hxe, hterm⟩)
      rw [hhas] at this
      cases this
    · have := (hcons.entryConflicted_iff (by omega) e.term).mpr ⟨x, hx, hxe, hterm⟩
      rw [hconflict] at this
      cases this
  · exact updates_chop hcons hrun hsame hnew hconflict hchop

end

/-! ## The handler -/

namespace Raft

theorem handleAppendEntries_cases (s : Raft) (req : AppendEntriesReq) :
    (s.handleAppendEntries req).2.success = false ∧
        (s.handleAppendEntries req).1.toReplica = s.toReplica ∨
      s.currTerm ≤ req.term ∧ s.log.hasEntry req.prevLogIndex req.prevLogTerm = true ∧
        ∃ new, mergeEntries s.log req.entries = some new ∧
          (s.handleAppendEntries req).2.success = true ∧
          (s.handleAppendEntries req).1.toReplica = { s.toReplica with
            log := new
            commitIndex := if s.commitIndex < req.leaderCommit
              then min req.leaderCommit new.lastEntryIndex else s.commitIndex } := by
  unfold handleAppendEntries
  split
  · exact .inl ⟨rfl, rfl⟩
  · rename_i hterm
    have hreplica := heedLeader_replica s req.term req.leaderId
    have hlog : (s.heedLeader req.term req.leaderId).log = s.log := by rw [hreplica]
    unfold acceptEntries
    rw [hlog]
    split
    · exact .inl ⟨rfl, hreplica⟩
    · rename_i hhas
      cases hmerge : mergeEntries s.log req.entries with
      | none => exact .inl ⟨rfl, hreplica⟩
      | some new =>
          refine .inr ⟨by omega, by simpa using hhas, new, rfl, rfl, ?_⟩
          rw [followEntries_replica, hreplica]

/--
A request whose entries go on from its previous one and agree with the base is
merged as it should be if and only if it does not start at index 0 below a base,
and brings no other data for a held entry.
-/
theorem append_entries_updates {s : Raft} {req : AppendEntriesReq} (hlog : s.log.Consecutive)
    (hrun : RunFrom req.prevLogIndex req.entries)
    (hbase : ∀ e ∈ req.entries, e.index = s.log.lastIndex → e.term = s.log.lastTerm)
    (hsuccess : (s.handleAppendEntries req).2.success = true) :
    Updates s.log req.entries (s.handleAppendEntries req).1.log ↔
      Mergeable s.log req.prevLogIndex req.entries := by
  rcases handleAppendEntries_cases s req with ⟨hno, -⟩ | ⟨-, hprev, new, hmerge, -, hreplica⟩
  · rw [hno] at hsuccess
    cases hsuccess
  · rw [hreplica]
    exact ⟨fun h => h.mergeable hlog hrun hmerge,
      fun h => h.updates hlog hprev hrun hbase hmerge⟩

def wholeLog : AppendEntriesReq :=
  { term := 2, leaderId := ascii "a:1", prevLogIndex := 0, prevLogTerm := 0, leaderCommit := 3
    entries :=
      [{ term := 1, index := 1, data := ascii "a:1,b:1", config := true },
        { term := 2, index := 2, data := ascii "x", config := false },
        { term := 2, index := 3, data := ascii "y", config := false }] }

def taken : Raft × AppendEntriesRes :=
  ((World.cluster ["a:1", "b:1"] true).servers (ascii "b:1")).handleAppendEntries wholeLog

def compacted : Raft :=
  taken.1.popCommitted.applyNext.applyNext.compact.applyNext.compact

theorem append_entries_updates_taken : Updates
    ((World.cluster ["a:1", "b:1"] true).servers (ascii "b:1")).log wholeLog.entries taken.1.log :=
  (@append_entries_updates ((World.cluster ["a:1", "b:1"] true).servers (ascii "b:1")) wholeLog
    (by decide) (by decide) (by decide) (by decide)).mpr (by decide)

/-- The same request once more is put behind the base it lies below. -/
theorem late_repeat_appended :
    ∃ (s : Raft) (req : AppendEntriesReq), s.log.Consecutive ∧ req.term = s.currTerm ∧
      RunFrom req.prevLogIndex req.entries ∧
      (∀ e ∈ req.entries, e.index = s.log.lastIndex → e.term = s.log.lastTerm) ∧
      (s.handleAppendEntries req).2.success = true ∧
      ¬ Updates s.log req.entries (s.handleAppendEntries req).1.log :=
  ⟨compacted, wholeLog, by decide, by decide, by decide, by decide, by decide,
    fun h => absurd h.consecutive (by decide)⟩

/-! ## What a request vouches for -/

section

variable {l : Raft} {n : Node} {full : List Entry}

/-- The next index of a node is that of an entry of the leader, or one past its last. -/
def Reaches (log : EntryLogger) (nextIndex : Nat) : Prop :=
  log.lastIndex < nextIndex ∧ nextIndex ≤ log.lastEntryIndex + 1

instance decidableReaches (log : EntryLogger) (nextIndex : Nat) :
    Decidable (Reaches log nextIndex) :=
  inferInstanceAs (Decidable (_ ∧ _))

private theorem appendEntriesReq_reaches (h : l.log.Holds full) (hreach : Reaches l.log n.nextIndex) :
    (l.appendEntriesReq n).lastIndex = l.log.lastEntryIndex := by
  obtain ⟨hlo, hhi⟩ := hreach
  have hlen := h.lastEntryIndex_eq
  obtain ⟨k, hk⟩ : ∃ k, n.nextIndex = k + 1 := ⟨n.nextIndex - 1, by omega⟩
  rw [AppendEntriesReq.lastIndex, prevLogIndex_eq h hk (by omega),
    appendEntriesReq_entries h hk (by omega), List.length_drop]
  split <;> omega

/-- The index up to which a request without entries vouches: the sentry, or the base. -/
def fallback (log : EntryLogger) (nextIndex : Nat) : Nat :=
  if nextIndex = 1 then 0 else log.lastIndex

private theorem appendEntriesReq_fallback (h : l.log.Holds full) (hn : 0 < n.nextIndex)
    (hreach : ¬ Reaches l.log n.nextIndex) : (l.appendEntriesReq n).entries = [] ∧
      (l.appendEntriesReq n).lastIndex = fallback l.log n.nextIndex := by
  obtain ⟨k, hk⟩ : ∃ k, n.nextIndex = k + 1 := ⟨n.nextIndex - 1, by omega⟩
  have hlen := h.lastEntryIndex_eq
  rw [hk, Reaches] at hreach
  have hnil : (l.appendEntriesReq n).entries = [] := by
    simp only [appendEntriesReq, hk]
    rcases Nat.lt_or_ge k l.log.lastIndex with hlt | hge
    · exact entriesFrom_below h _ _ hlt
    · rw [show l.log.lastEntryIndex + 1 - (k + 1) = 0 by omega, entriesFrom]
  refine ⟨hnil, ?_⟩
  rw [AppendEntriesReq.lastIndex, hnil, List.length_nil, Nat.add_zero, fallback, hk]
  cases k with
  | zero => simp [appendEntriesReq, hk, logEntrySentry]
  | succ k =>
      have hget : l.log.get (k + 1) = none := by
        rw [h.get_eq_none_iff]
        omega
      simp [appendEntriesReq, hk, hget]

/-- A request of a term that is over, or one whose previous entry is not held. -/
def Refuses (f : Raft) (req : AppendEntriesReq) : Prop :=
  req.term < f.currTerm ∨ f.log.hasEntry req.prevLogIndex req.prevLogTerm = false

instance (f : Raft) (req : AppendEntriesReq) : Decidable (Refuses f req) :=
  inferInstanceAs (Decidable (_ ∨ _))

theorem Refuses.replica {f : Raft} {req : AppendEntriesReq} (h : Refuses f req) :
    (f.handleAppendEntries req).1.toReplica = f.toReplica := by
  rcases handleAppendEntries_cases f req with ⟨-, hreplica⟩ | ⟨hterm, hhas, -⟩
  · exact hreplica
  · rcases h with hlt | hmissing
    · omega
    · rw [hhas] at hmissing
      cases hmissing

private theorem handleAppendEntries_nil {f : Raft} {req : AppendEntriesReq} (hnil : req.entries = [])
    (hnot : ¬ Refuses f req) : (f.handleAppendEntries req).1.commitIndex =
      if f.commitIndex < req.leaderCommit
        then min req.leaderCommit f.log.lastEntryIndex else f.commitIndex := by
  simp only [Refuses, not_or, Nat.not_lt, Bool.not_eq_false] at hnot
  obtain ⟨hterm, hhas⟩ := hnot
  rcases handleAppendEntries_cases f req with ⟨hno, -⟩ | ⟨-, -, new, hmerge, -, hreplica⟩
  · unfold handleAppendEntries acceptEntries at hno
    rw [if_neg (by omega), heedLeader_replica, if_neg (by simpa using hhas), hnil] at hno
    cases hno
  · rw [hnil] at hmerge
    cases hmerge
    rw [hreplica]

/-- What a follower commits anew is at most what the request reaches. -/
def CommitsVouched (f : Raft) (req : AppendEntriesReq) : Prop :=
  f.commitIndex < (f.handleAppendEntries req).1.commitIndex →
    (f.handleAppendEntries req).1.commitIndex ≤ req.lastIndex

/--
A follower commits no more than the request vouches for if and only if the
request reaches up to the end of the leader's log, or is refused, or there is
nothing more that both servers know of.
-/
theorem commits_vouched {f : Raft} (h : l.log.Holds full)
    (hcommit : l.commitIndex ≤ l.log.lastEntryIndex) (hn : 0 < n.nextIndex) :
    CommitsVouched f (l.appendEntriesReq n) ↔
      Reaches l.log n.nextIndex ∨ Refuses f (l.appendEntriesReq n) ∨
        l.commitIndex ≤ max f.commitIndex (fallback l.log n.nextIndex) ∨
        f.log.lastEntryIndex ≤ max f.commitIndex (fallback l.log n.nextIndex) := by
  have hleader : (l.appendEntriesReq n).leaderCommit = l.commitIndex := rfl
  unfold CommitsVouched
  by_cases hreach : Reaches l.log n.nextIndex
  · refine ⟨fun _ => .inl hreach, fun _ hlt => ?_⟩
    rw [appendEntriesReq_reaches h hreach]
    rcases handleAppendEntries_cases f (l.appendEntriesReq n) with
      ⟨-, hreplica⟩ | ⟨-, -, new, -, -, hreplica⟩
    · rw [hreplica] at hlt
      omega
    · rw [hreplica, hleader] at hlt ⊢
      dsimp only at hlt ⊢
      by_cases hlow : f.commitIndex < l.commitIndex
      · rw [if_pos hlow]
        omega
      · rw [if_neg hlow] at hlt
        omega
  by_cases hrefuse : Refuses f (l.appendEntriesReq n)
  · rw [hrefuse.replica]
    simp [hrefuse]
  obtain ⟨hnil, hlast⟩ := appendEntriesReq_fallback h hn hreach
  rw [handleAppendEntries_nil hnil hrefuse, hlast, hleader]
  simp only [hreach, hrefuse, false_or]
  split <;> omega

def settledAt (log : EntryLogger) (commitIndex : Nat) : Raft :=
  { (World.cluster ["a:1", "b:1"] true).servers (ascii "a:1") with
    currTerm := 3, log := log, commitIndex := commitIndex }

def basedLeader : Raft :=
  settledAt
    { lastIndex := 2, lastTerm := 2, lastConfig := ascii "a:1,b:1", cfgEntryIndex := 0
      entries :=
        [{ term := 3, index := 3, data := ascii "x", config := false, prevCfg := 0 },
          { term := 3, index := 4, data := ascii "y", config := false, prevCfg := 0 }] } 4

def staleFollower : Raft :=
  settledAt
    { lastIndex := 0, lastTerm := 0, lastConfig := [], cfgEntryIndex := 1
      entries :=
        [{ term := 1, index := 1, data := ascii "a:1,b:1", config := true, prevCfg := 0 },
          { term := 2, index := 2, data := ascii "u", config := false, prevCfg := 0 },
          { term := 2, index := 3, data := ascii "v", config := false, prevCfg := 0 },
          { term := 2, index := 4, data := ascii "w", config := false, prevCfg := 0 }] } 2

def nodeAt (nextIndex : Nat) : Node :=
  { id := ascii "b:1", nextIndex := nextIndex, matchIndex := 0, transferLeaderTo := false
    transferDataTo := false }

def behindLeader : List Entry :=
  [{ term := 1, index := 1, data := ascii "a:1,b:1", config := true },
    { term := 2, index := 2, data := ascii "u", config := false },
    { term := 3, index := 3, data := ascii "x", config := false },
    { term := 3, index := 4, data := ascii "y", config := false }]

theorem commits_vouched_based :
    CommitsVouched staleFollower (basedLeader.appendEntriesReq (nodeAt 3)) :=
  (@commits_vouched basedLeader (nodeAt 3) behindLeader staleFollower (by decide) (by decide)
    (by decide)).mpr (by decide)

/-- The next index has been compacted away, and the follower commits its own entries. -/
theorem stale_entries_committed :
    ∃ (l f : Raft) (n : Node) (full : List Entry), l.log.Holds full ∧ f.log.Consecutive ∧
      l.commitIndex ≤ l.log.lastEntryIndex ∧ 0 < n.nextIndex ∧
      ¬ CommitsVouched f (l.appendEntriesReq n) :=
  ⟨basedLeader, staleFollower, nodeAt 2, behindLeader, by decide, by decide, by decide, by decide,
    by unfold CommitsVouched; decide⟩

end

end Raft

end Draft
