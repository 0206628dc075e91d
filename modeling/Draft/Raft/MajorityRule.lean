import Mathlib.Order.Bounds.Basic
import Draft.Foundation.ConsecutiveLog
import Draft.Raft.CommitRule

/-!
# The majority rule

`adjust_commit_index` looks for a majority between the least and the largest
match with an entry of the current term only.  That is enough: an index with a
majority is at or below such a match, and when it is below all of them the least
one has the same majority.
-/

namespace Draft.Raft

variable {s : Raft} {low start i : Nat}

/-! ## The counting loop -/

/--
The second loop with its unsigned counter, which goes on from the top below 0.
There is no result when the fuel runs out.
-/
def countingLoop (s : Raft) (low : Nat) : Nat → Nat → Option (Option Nat)
  | 0, _ => none
  | fuel + 1, i =>
      if i < low then some none
      else if s.cluster.length / 2 < s.count i then some (some i)
      else countingLoop s low fuel (if i = 0 then 2 ^ 64 - 1 else i - 1)

private theorem countingLoop_eq (h : 0 < low ∨ s.cluster.length / 2 < s.count 0) (i : Nat) :
    s.countingLoop low (i + 1) i = some (s.scan low i) := by
  induction i with
  | zero =>
      unfold countingLoop scan
      by_cases hlow : low = 0
      · have hcount := h.resolve_left (by omega)
        simp [hlow, hcount]
      · simp [hlow, Nat.pos_of_ne_zero hlow]
  | succ i ih =>
      rw [countingLoop, scan]
      split
      · rfl
      · split
        · rfl
        · simpa using ih

private theorem scan_greatest {j : Nat} (h : s.scan low start = some i) (hlt : i < j) (hle : j ≤ start) :
    ¬ s.cluster.length / 2 < s.count j := by
  induction start with
  | zero =>
      have := (scan_eq_some h).2.1
      omega
  | succ start ih =>
      unfold scan at h
      split at h
      · cases h
      · rename_i hlow
        split at h
        · cases h
          omega
        · rename_i hcount
          rcases Nat.lt_or_ge start j with hj | hj
          · rwa [show j = start + 1 by omega]
          · exact ih h hj

private theorem scan_none {j : Nat} (h : s.scan low start = none) (hlow : low ≤ j) (hle : j ≤ start) :
    ¬ s.cluster.length / 2 < s.count j := by
  induction start with
  | zero =>
      intro hcount
      obtain rfl : j = 0 := by omega
      obtain rfl : low = 0 := by omega
      simp [scan, hcount] at h
  | succ start ih =>
      unfold scan at h
      split at h
      · omega
      · split at h
        · cases h
        · rename_i hcount
          rcases Nat.lt_or_ge start j with hj | hj
          · rwa [show j = start + 1 by omega]
          · exact ih h hj

private theorem le_foldl_max {α : Type*} (f : α → Nat) (l : List α) (a : Nat) :
    ∀ x ∈ l, f x ≤ l.foldl (fun m x => max m (f x)) a := by
  have hmono : ∀ (l : List α) (a : Nat), a ≤ l.foldl (fun m x => max m (f x)) a := by
    intro l
    induction l with
    | nil => simp
    | cons y rest ih =>
        intro a
        exact (Nat.le_max_left a (f y)).trans (ih _)
  induction l generalizing a with
  | nil => simp
  | cons y rest ih =>
      simp only [List.foldl_cons, List.mem_cons, forall_eq_or_imp]
      exact ⟨(Nat.le_max_right a (f y)).trans (hmono rest _), ih _⟩

/-! ## Who is counted -/

private theorem count_le_count {j : Nat} (h : ∀ n ∈ s.others, j ≤ n.matchIndex → i ≤ n.matchIndex) :
    s.count j ≤ s.count i := by
  unfold count
  rw [← List.countP_eq_length_filter, ← List.countP_eq_length_filter]
  refine Nat.add_le_add_left (List.countP_mono_left fun n hn => ?_) _
  simpa using h n hn

/--
What the commit rule is used on: a log, the matches in it, and a map from
addresses to the nodes that `make_node` built from them.
-/
structure Tallied (s : Raft) : Prop where
  consecutive : s.log.Consecutive
  base_le : s.log.lastIndex ≤ s.commitIndex
  commit_le : s.commitIndex ≤ s.log.lastEntryIndex
  terms : ∀ x ∈ s.log.entries, ∀ y ∈ s.log.entries, x.index ≤ y.index → x.term ≤ y.term
  current : ∀ x ∈ s.log.entries, x.term ≤ s.currTerm
  matches_le : ∀ p ∈ s.cluster, p.2.matchIndex ≤ s.log.lastEntryIndex
  members : s.cluster ≠ []
  keys : (s.cluster.map (·.1)).Nodup
  self_key : ∀ p ∈ s.cluster, p.2.id = s.selfId → p.1 = s.selfId

instance (s : Raft) : Decidable s.Tallied :=
  decidable_of_iff (s.log.Consecutive ∧ s.log.lastIndex ≤ s.commitIndex ∧
      s.commitIndex ≤ s.log.lastEntryIndex ∧
      (∀ x ∈ s.log.entries, ∀ y ∈ s.log.entries, x.index ≤ y.index → x.term ≤ y.term) ∧
      (∀ x ∈ s.log.entries, x.term ≤ s.currTerm) ∧
      (∀ p ∈ s.cluster, p.2.matchIndex ≤ s.log.lastEntryIndex) ∧ s.cluster ≠ [] ∧
      (s.cluster.map (·.1)).Nodup ∧ ∀ p ∈ s.cluster, p.2.id = s.selfId → p.1 = s.selfId)
    ⟨fun ⟨h₁, h₂, h₃, h₄, h₅, h₆, h₇, h₈, h₉⟩ => ⟨h₁, h₂, h₃, h₄, h₅, h₆, h₇, h₈, h₉⟩,
    fun ⟨h₁, h₂, h₃, h₄, h₅, h₆, h₇, h₈, h₉⟩ => ⟨h₁, h₂, h₃, h₄, h₅, h₆, h₇, h₈, h₉⟩⟩

namespace Tallied

private theorem length_le_count (h : s.Tallied) : s.cluster.length ≤ s.count 0 := by
  have hothers : (s.others.filter (0 ≤ ·.matchIndex)).length =
      s.cluster.countP fun p => p.2.id ≠ s.selfId := by
    rw [List.filter_eq_self.mpr (by simp), others, List.filter_map, List.length_map,
      List.countP_eq_length_filter]
    rfl
  have hself : s.cluster.countP (fun p => ¬ decide (p.2.id ≠ s.selfId) = true) ≤
      (s.cluster.map (·.1)).count s.selfId := by
    rw [List.count, List.countP_map]
    refine List.countP_mono_left fun p hp hid => ?_
    simpa using h.self_key p hp (by simpa using hid)
  have hsplit := List.length_eq_countP_add_countP (fun p => p.2.id ≠ s.selfId) (l := s.cluster)
  have hone := List.nodup_iff_count_le_one.mp h.keys s.selfId
  rw [count, hothers]
  split
  · omega
  · rename_i hnot
    have hzero : (s.cluster.map (·.1)).count s.selfId = 0 := by
      rw [List.count_eq_zero, List.mem_map]
      rintro ⟨p, hp, hkey⟩
      exact hnot (List.any_eq_true.mpr ⟨p, hp, by simpa using hkey⟩)
    omega

private theorem majority_zero (h : s.Tallied) : s.cluster.length / 2 < s.count 0 := by
  have hle := h.length_le_count
  have hpos := List.length_pos_of_ne_nil h.members
  omega

theorem get_eq_some (h : s.Tallied) (hlo : s.commitIndex < i) (hhi : i ≤ s.log.lastEntryIndex) :
    ∃ x ∈ s.log.entries, x.index = i ∧ s.log.get i = some x := by
  have hbase := h.base_le
  rw [h.consecutive.lastEntryIndex_eq] at hhi
  obtain ⟨x, hx, rfl⟩ := h.consecutive.exists_mem (by omega) hhi
  exact ⟨x, hx, rfl, h.consecutive.get_mem hx⟩

private theorem others_le (h : s.Tallied) {n : Node} (hn : n ∈ s.others) :
    n.matchIndex ≤ s.log.lastEntryIndex := by
  obtain ⟨p, hp, rfl⟩ := List.mem_map.mp (List.mem_of_mem_filter hn)
  exact h.matches_le p hp

private theorem not_readsMissing (h : s.Tallied) : s.others.any s.readsMissing = false := by
  rw [← Bool.not_eq_true, List.any_eq_true]
  rintro ⟨n, hn, hmissing⟩
  simp only [readsMissing, Bool.and_eq_true, decide_eq_true_eq, Option.isNone_iff_eq_none]
    at hmissing
  obtain ⟨x, -, -, hget⟩ := h.get_eq_some hmissing.1 (h.others_le hn)
  rw [hget] at hmissing
  cases hmissing.2

end Tallied

/-! ## Between the bounds -/

def Current (s : Raft) (i : Nat) : Prop :=
  s.commitIndex < i ∧ (s.log.get i).any (·.term = s.currTerm) = true

instance (s : Raft) (i : Nat) : Decidable (s.Current i) :=
  inferInstanceAs (Decidable (_ ∧ _))

private theorem qualifies_iff {n : Node} : s.qualifies n = true ↔ s.Current n.matchIndex := by
  simp [qualifies, Current]

private theorem minMatch_le {n : Node} (hn : n ∈ s.others.filter s.qualifies) :
    s.minMatch ≤ n.matchIndex :=
  (foldl_min_le Node.matchIndex _ _).2 n hn

private theorem le_maxMatch {n : Node} (hn : n ∈ s.others.filter s.qualifies) :
    n.matchIndex ≤ s.maxMatch :=
  le_foldl_max Node.matchIndex _ _ n hn

namespace Tallied

private theorem current_of_le (h : s.Tallied) {j : Nat} (hi : s.Current i) (hle : i ≤ j)
    (hj : j ≤ s.log.lastEntryIndex) : s.Current j := by
  obtain ⟨hlt, hterm⟩ := hi
  obtain ⟨x, hx, rfl, hget⟩ := h.get_eq_some hlt (by omega)
  obtain ⟨y, hy, rfl, hget'⟩ := h.get_eq_some (i := j) (by omega) hj
  simp only [hget, Option.any_some, decide_eq_true_eq] at hterm
  have hxy := h.terms x hx y hy hle
  have hcurrent := h.current y hy
  refine ⟨by omega, ?_⟩
  simp only [hget', Option.any_some, decide_eq_true_eq]
  omega

private theorem mem_qualified (h : s.Tallied) {n : Node} (hn : n ∈ s.others) (hi : s.Current i)
    (hle : i ≤ n.matchIndex) : n ∈ s.others.filter s.qualifies :=
  List.mem_filter.mpr ⟨hn, qualifies_iff.mpr (h.current_of_le hi hle (h.others_le hn))⟩

private theorem exists_qualified (h : s.Tallied) (hi : s.Current i)
    (hmajority : s.cluster.length / 2 < s.count i)
    (halone : ¬ (s.cluster.length = 1 ∧ s.contains s.selfId)) :
    ∃ n ∈ s.others.filter s.qualifies, i ≤ n.matchIndex := by
  have hpos := List.length_pos_of_ne_nil h.members
  cases hvoters : s.others.filter (i ≤ ·.matchIndex) with
  | nil =>
      rw [count, hvoters, List.length_nil] at hmajority
      split at hmajority
      · rename_i hself
        exact absurd ⟨by omega, hself⟩ halone
      · omega
  | cons n rest =>
      have hn : n ∈ s.others.filter (i ≤ ·.matchIndex) := by simp [hvoters]
      obtain ⟨hother, hle⟩ := List.mem_filter.mp hn
      have hle : i ≤ n.matchIndex := by simpa using hle
      exact ⟨n, h.mem_qualified hother hi hle, hle⟩

private theorem current_of_bounds (h : s.Tallied) (hlo : s.minMatch ≤ i) (hhi : i ≤ s.maxMatch) :
    i = 0 ∧ s.log.lastEntryIndex = 0 ∨ s.Current i ∧ i ≤ s.log.lastEntryIndex := by
  rcases foldl_max_mem Node.matchIndex (s.others.filter s.qualifies) 0 with h0 | ⟨n, hn, hmax⟩
  · have h0 : s.maxMatch = 0 := h0
    rcases foldl_min_mem Node.matchIndex (s.others.filter s.qualifies) s.log.lastEntryIndex with
      hend | ⟨m, hm, -⟩
    · have hend : s.minMatch = s.log.lastEntryIndex := hend
      omega
    · have hcurrent := qualifies_iff.mp (List.mem_filter.mp hm).2
      have hle := le_maxMatch hm
      have := hcurrent.1
      omega
  · have hmax : s.maxMatch = n.matchIndex := hmax
    have hcurrent := qualifies_iff.mp (List.mem_filter.mp hn).2
    have hlast := h.others_le (List.mem_filter.mp hn).1
    refine .inr ⟨?_, by omega⟩
    -- the least match is one of the current term too, and the index lies behind it
    rcases foldl_min_mem Node.matchIndex (s.others.filter s.qualifies) s.log.lastEntryIndex with
      hend | ⟨m, hm, hmin⟩
    · have hend : s.minMatch = s.log.lastEntryIndex := hend
      rwa [show i = n.matchIndex by omega]
    · have hmin : s.minMatch = m.matchIndex := hmin
      exact h.current_of_le (qualifies_iff.mp (List.mem_filter.mp hm).2) (by omega) (by omega)

end Tallied

/-! ## The rule -/

/-- An index that the rule may commit: one of the current term that a majority reaches. -/
structure Committable (s : Raft) (i : Nat) : Prop where
  above : s.commitIndex < i
  term : ∃ e ∈ s.log.get i, e.term = s.currTerm
  majority : s.cluster.length < 2 * ((if s.contains s.selfId then 1 else 0) +
    (s.others.filter (i ≤ ·.matchIndex)).length)

private theorem committable_iff : s.Committable i ↔ s.Current i ∧ s.cluster.length / 2 < s.count i := by
  have hcount : s.count i = (if s.contains s.selfId then 1 else 0) +
      (s.others.filter (i ≤ ·.matchIndex)).length := rfl
  constructor
  · rintro ⟨habove, hterm, hmajority⟩
    exact ⟨⟨habove, by simpa [Option.any_eq_true] using hterm⟩, by omega⟩
  · rintro ⟨⟨habove, hterm⟩, hmajority⟩
    exact ⟨habove, by simpa [Option.any_eq_true] using hterm, by omega⟩

/-- The scan finds the largest index that may be committed, if there is one. -/
theorem Tallied.scan_spec (h : s.Tallied)
    (halone : ¬ (s.cluster.length = 1 ∧ s.contains s.selfId)) :
    (∃ i, s.scan s.minMatch s.maxMatch = some i ∧ IsGreatest {i | s.Committable i} i) ∨
      (∀ i, s.scan s.minMatch s.maxMatch = some i → i = s.commitIndex) ∧
        ∀ i, ¬ s.Committable i := by
  have hbelow : ∀ j, s.Committable j → j ≤ s.maxMatch ∧
      (j < s.minMatch → s.cluster.length / 2 < s.count s.minMatch) := by
    intro j hj
    obtain ⟨hcurrent, hmajority⟩ := committable_iff.mp hj
    obtain ⟨n, hn, hle⟩ := h.exists_qualified hcurrent hmajority halone
    refine ⟨hle.trans (le_maxMatch hn), fun _ => hmajority.trans_le ?_⟩
    -- who reaches the index has a match that is taken into account
    exact count_le_count fun m hm hmj => minMatch_le (h.mem_qualified hm hcurrent hmj)
  cases hscan : s.scan s.minMatch s.maxMatch with
  | some i =>
      obtain ⟨hlo, hhi, hmajority⟩ := scan_eq_some hscan
      rcases h.current_of_bounds hlo hhi with ⟨h0, hlast⟩ | ⟨hcurrent, -⟩
      · refine .inr ⟨fun j hj => ?_, fun j hj => ?_⟩
        · have := h.commit_le
          cases hj
          omega
        · obtain ⟨e, he, -⟩ := hj.term
          have hpos := hj.above
          obtain ⟨hmem, hindex⟩ := (h.consecutive.get_eq_some (by omega) e).mp he
          have := h.consecutive.mem_bounds hmem
          rw [h.consecutive.lastEntryIndex_eq] at hlast
          omega
      · refine .inl ⟨i, rfl, committable_iff.mpr ⟨hcurrent, hmajority⟩, fun j hj => ?_⟩
        by_contra hlt
        exact scan_greatest hscan (Nat.lt_of_not_le hlt) (hbelow j hj).1
          (committable_iff.mp hj).2
  | none =>
      refine .inr ⟨by simp, fun j hj => ?_⟩
      obtain ⟨hhi, hmin⟩ := hbelow j hj
      obtain ⟨hcurrent, hmajority⟩ := committable_iff.mp hj
      obtain ⟨n, hn, -⟩ := h.exists_qualified hcurrent hmajority halone
      rcases Nat.lt_or_ge j s.minMatch with hlt | hge
      · exact scan_none hscan (Nat.le_refl _) ((minMatch_le hn).trans (le_maxMatch hn)) (hmin hlt)
      · exact scan_none hscan hge hhi hmajority

private theorem commitReconfiguration_faulted (s : Raft) (oldCommit : Nat) :
    (s.commitReconfiguration oldCommit).faulted = s.faulted := by
  unfold commitReconfiguration
  dsimp only
  split <;> rfl

private theorem commitAlone_faulted (s : Raft) (oldCommit : Nat) :
    (s.commitAlone oldCommit).faulted = s.faulted := by
  unfold commitAlone
  split
  · split <;> rfl
  · rfl

theorem faulted_adjustCommitIndex (h : s.others.any s.readsMissing = false) :
    s.adjustCommitIndex.faulted = s.faulted := by
  unfold adjustCommitIndex
  rw [h, if_neg Bool.false_ne_true]
  simp only [commitReconfiguration_faulted, commitAlone_faulted]
  split <;> rfl

private theorem Tallied.adjustCommitIndex_faulted (h : s.Tallied) :
    s.adjustCommitIndex.faulted = s.faulted :=
  faulted_adjustCommitIndex h.not_readsMissing

private theorem Tallied.adjustCommitIndex_commitIndex (h : s.Tallied) :
    s.adjustCommitIndex.commitIndex =
      if s.cluster.length = 1 ∧ s.contains s.selfId then s.log.lastEntryIndex
      else (s.scan s.minMatch s.maxMatch).getD s.commitIndex := by
  unfold adjustCommitIndex
  rw [h.not_readsMissing, if_neg Bool.false_ne_true, commitReconfiguration_replica]
  have alone : ∀ (t : Raft) (oldCommit : Nat), (t.commitAlone oldCommit).commitIndex =
      if t.cluster.length = 1 ∧ t.contains t.selfId then t.log.lastEntryIndex
      else t.commitIndex := by
    intro t oldCommit
    unfold commitAlone
    split
    · split <;> rfl
    · rfl
  rw [alone]
  cases s.scan s.minMatch s.maxMatch <;> rfl

/--
The counting loop ends, and the new commit index is the largest index above the
old one that has an entry of the current term and is reached by a majority, or
the old one when there is none.  A server alone commits its last entry.
-/
theorem adjust_commit_index_majority (h : s.Tallied) :
    (∃ fuel, s.countingLoop s.minMatch fuel s.maxMatch =
      some (s.scan s.minMatch s.maxMatch)) ∧
    s.adjustCommitIndex.faulted = s.faulted ∧
    (s.cluster.length = 1 ∧ s.contains s.selfId →
      s.adjustCommitIndex.commitIndex = s.log.lastEntryIndex) ∧
    (¬ (s.cluster.length = 1 ∧ s.contains s.selfId) →
      IsGreatest {i | s.Committable i} s.adjustCommitIndex.commitIndex ∨
        (∀ i, ¬ s.Committable i) ∧ s.adjustCommitIndex.commitIndex = s.commitIndex) := by
  refine ⟨⟨s.maxMatch + 1, countingLoop_eq (.inr h.majority_zero) s.maxMatch⟩,
    h.adjustCommitIndex_faulted, fun halone => ?_, fun halone => ?_⟩
  · rw [h.adjustCommitIndex_commitIndex, if_pos halone]
  · rw [h.adjustCommitIndex_commitIndex, if_neg halone]
    rcases h.scan_spec halone with ⟨i, hscan, hgreatest⟩ | ⟨hscan, hnone⟩
    · rw [hscan, Option.getD_some]
      exact .inl hgreatest
    · refine .inr ⟨hnone, ?_⟩
      cases hfound : s.scan s.minMatch s.maxMatch with
      | none => rfl
      | some i => exact hscan i hfound

def leaderOfThree : Raft :=
  Raft.recordMatch (Raft.append { (World.cluster ["a:1", "b:1", "c:1"] true).servers
    (ascii "a:1") with role := .leader, currTerm := 2 } (ascii "x")) (ascii "b:1") 2

theorem adjust_commit_index_majority_three :
    leaderOfThree.adjustCommitIndex.commitIndex = 2 ∧
      IsGreatest {i | leaderOfThree.Committable i} leaderOfThree.adjustCommitIndex.commitIndex := by
  have hmoved : leaderOfThree.adjustCommitIndex.commitIndex ≠ leaderOfThree.commitIndex := by decide
  obtain ⟨-, -, -, hrule⟩ := @adjust_commit_index_majority leaderOfThree (by decide)
  exact ⟨by decide, (hrule (by decide)).resolve_right fun h => hmoved h.2⟩

end Draft.Raft
