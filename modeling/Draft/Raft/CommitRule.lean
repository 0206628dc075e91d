import Draft.Foundation.FullLog
import Draft.Raft.Membership

/-!
# The commit rule

`adjust_commit_index` moves the commit index to an index that a majority has,
between two indices with entries of the current term, or to the end of the log
when the server is alone.
-/

namespace Draft.Raft

variable {s : Raft} {ids : List Bytes} {full : List Entry}

/-! ## The two bounds -/

theorem foldl_min_le {α : Type*} (f : α → Nat) (l : List α) (a : Nat) :
    l.foldl (fun m x => min m (f x)) a ≤ a ∧ ∀ x ∈ l, l.foldl (fun m x => min m (f x)) a ≤ f x := by
  induction l generalizing a with
  | nil => simp
  | cons y rest ih =>
      obtain ⟨hle, hall⟩ := ih (min a (f y))
      simp only [List.foldl_cons, List.mem_cons, forall_eq_or_imp]
      exact ⟨by omega, by omega, hall⟩

theorem foldl_min_mem {α : Type*} (f : α → Nat) (l : List α) (a : Nat) :
    l.foldl (fun m x => min m (f x)) a = a ∨
      ∃ x ∈ l, l.foldl (fun m x => min m (f x)) a = f x := by
  induction l generalizing a with
  | nil => simp
  | cons y rest ih =>
      simp only [List.foldl_cons, List.mem_cons, exists_eq_or_imp]
      rcases ih (min a (f y)) with heq | hex
      · rcases Nat.le_total a (f y) with hle | hle
        · exact .inl (heq.trans (Nat.min_eq_left hle))
        · exact .inr (.inl (heq.trans (Nat.min_eq_right hle)))
      · exact .inr (.inr hex)

theorem foldl_max_mem {α : Type*} (f : α → Nat) (l : List α) (a : Nat) :
    l.foldl (fun m x => max m (f x)) a = a ∨
      ∃ x ∈ l, l.foldl (fun m x => max m (f x)) a = f x := by
  induction l generalizing a with
  | nil => simp
  | cons y rest ih =>
      simp only [List.foldl_cons, List.mem_cons, exists_eq_or_imp]
      rcases ih (max a (f y)) with heq | hex
      · rcases Nat.le_total a (f y) with hle | hle
        · exact .inr (.inl (heq.trans (Nat.max_eq_right hle)))
        · exact .inl (heq.trans (Nat.max_eq_left hle))
      · exact .inr (.inr hex)

private theorem qualifies_termAt (h : s.log.Holds full) {n : Node} (hn : s.qualifies n) :
    s.commitIndex < n.matchIndex ∧ termAt full n.matchIndex = some s.currTerm := by
  simp only [qualifies, Bool.and_eq_true, decide_eq_true_eq, Option.any_eq_true] at hn
  obtain ⟨hlt, e, he, hterm⟩ := hn
  refine ⟨hlt, ?_⟩
  obtain ⟨k, hk⟩ : ∃ k, n.matchIndex = k + 1 := ⟨n.matchIndex - 1, by omega⟩
  have hmap := h.get_succ_map k
  rw [hk] at he ⊢
  rw [he] at hmap
  split at hmap
  · cases hmap
  · simp [termAt, ← hmap, hterm]

theorem between_of_bounds (h : s.log.Holds full) {i : Nat} (hlo : s.minMatch ≤ i)
    (hhi : i ≤ s.maxMatch) : (i = 0 ∧ full = []) ∨
      ∃ lo hi, s.commitIndex < lo ∧ lo ≤ i ∧ i ≤ hi ∧ termAt full lo = some s.currTerm ∧
        termAt full hi = some s.currTerm := by
  have hlast := h.lastEntryIndex_eq
  have hmin := foldl_min_le Node.matchIndex (s.others.filter s.qualifies) s.log.lastEntryIndex
  rcases foldl_max_mem Node.matchIndex (s.others.filter s.qualifies) 0 with h0 | ⟨n, hn, hmax⟩
  · rcases foldl_min_mem Node.matchIndex (s.others.filter s.qualifies) s.log.lastEntryIndex with
      hend | ⟨n, hn, hmem⟩
    · refine .inl ⟨?_, List.eq_nil_of_length_eq_zero ?_⟩ <;>
        simp only [minMatch, maxMatch, h0, hend] at hlo hhi <;> omega
    · have hterm := qualifies_termAt h (List.mem_filter.mp hn).2
      simp only [minMatch, maxMatch, h0, hmem] at hlo hhi
      omega
  · have hhigh := qualifies_termAt h (List.mem_filter.mp hn).2
    have hle : n.matchIndex ≤ full.length := by
      cases hm : n.matchIndex with
      | zero => omega
      | succ k =>
          rw [hm] at hhigh
          simp only [termAt, Option.map_eq_some_iff] at hhigh
          obtain ⟨-, x, hx, -⟩ := hhigh
          exact (List.getElem?_eq_some_iff.mp hx).1
    have hbound := hmin.2 n hn
    refine .inr ⟨s.minMatch, n.matchIndex, ?_, hlo, by rw [← hmax]; exact hhi, ?_, hhigh.2⟩
    all_goals
      rcases foldl_min_mem Node.matchIndex (s.others.filter s.qualifies) s.log.lastEntryIndex with
        hend | ⟨m, hm, hmem⟩
    · have : n.matchIndex = s.minMatch := by simp only [minMatch]; omega
      exact this ▸ hhigh.1
    · have hlow := qualifies_termAt h (List.mem_filter.mp hm).2
      simp only [minMatch, hmem]
      exact hlow.1
    · have : n.matchIndex = s.minMatch := by simp only [minMatch]; omega
      exact this ▸ hhigh.2
    · have hlow := qualifies_termAt h (List.mem_filter.mp hm).2
      simp only [minMatch, hmem]
      exact hlow.2

/-! ## The majority -/

theorem scan_eq_some {low start i : Nat} (h : s.scan low start = some i) :
    low ≤ i ∧ i ≤ start ∧ s.cluster.length / 2 < s.count i := by
  induction start with
  | zero =>
      unfold scan at h
      split at h
      · rename_i hcond
        cases h
        exact ⟨Nat.le_of_eq hcond.1, Nat.le_refl 0, hcond.2⟩
      · cases h
  | succ start ih =>
      unfold scan at h
      split at h
      · cases h
      · split at h
        · rename_i hlow hcount
          cases h
          exact ⟨by omega, Nat.le_refl _, hcount⟩
        · obtain ⟨h₁, h₂, h₃⟩ := ih h
          exact ⟨h₁, by omega, h₃⟩

theorem exists_counted (h : HasMembers ids s) (hself : s.selfId ∈ ids) (i : Nat) :
    ∃ Q ⊆ ids.toFinset, Q.card = s.count i ∧
      ∀ n ∈ Q, n = s.selfId ∨ ∃ m ∈ s.others, m.id = n ∧ i ≤ m.matchIndex := by
  have hcontains : s.contains s.selfId := by
    obtain ⟨q, hq, hkey⟩ := List.mem_map.mp (h.present _ hself)
    obtain ⟨p, hp, rfl⟩ := List.mem_map.mp hq
    simp only [contains, List.any_eq_true, decide_eq_true_eq]
    exact ⟨p, hp, hkey⟩
  let voters := (s.others.filter (i ≤ ·.matchIndex)).map (·.id)
  have hsub : voters.Sublist (s.others.map (·.id)) := List.filter_sublist.map _
  have hnodup : voters.Nodup := h.others_nodup.sublist hsub
  have hmem : ∀ n ∈ voters, n ∈ ids ∧ n ≠ s.selfId := fun n hn => h.mem_others.mp (hsub.subset hn)
  have hnew : s.selfId ∉ voters.toFinset := fun hin => (hmem _ (List.mem_toFinset.mp hin)).2 rfl
  refine ⟨insert s.selfId voters.toFinset, ?_, ?_, ?_⟩
  · intro n hn
    rcases Finset.mem_insert.mp hn with rfl | hn
    · exact List.mem_toFinset.mpr hself
    · exact List.mem_toFinset.mpr (hmem n (List.mem_toFinset.mp hn)).1
  · rw [Finset.card_insert_of_notMem hnew, List.toFinset_card_of_nodup hnodup, count,
      if_pos hcontains, List.length_map, Nat.add_comm]
  · intro n hn
    rcases Finset.mem_insert.mp hn with rfl | hn
    · exact .inl rfl
    · obtain ⟨m, hm, rfl⟩ := List.mem_map.mp (List.mem_toFinset.mp hn)
      obtain ⟨hother, hle⟩ := List.mem_filter.mp hm
      exact .inr ⟨m, hother, rfl, by simpa using hle⟩

/-! ## What the rule does -/

inductive Commits (s : Raft) : Nat → Prop
  | counted {i : Nat} (hlo : s.minMatch ≤ i) (hhi : i ≤ s.maxMatch)
      (hcount : s.cluster.length / 2 < s.count i) : Commits s i
  | alone (h : s.cluster.length = 1) : Commits s s.log.lastEntryIndex

theorem commitReconfiguration_replica (s : Raft) (oldCommit : Nat) :
    (s.commitReconfiguration oldCommit).toReplica = s.toReplica := by
  unfold commitReconfiguration
  dsimp only
  split <;> rfl

theorem commitAlone_replica (s : Raft) (oldCommit : Nat) :
    (s.commitAlone oldCommit).toReplica = s.toReplica ∨
      s.cluster.length = 1 ∧ (s.commitAlone oldCommit).toReplica =
        { s.toReplica with commitIndex := s.log.lastEntryIndex } := by
  unfold commitAlone
  split
  · rename_i h
    refine .inr ⟨h.1, ?_⟩
    split <;> rfl
  · exact .inl rfl

theorem adjustCommitIndex_replica (s : Raft) :
    s.adjustCommitIndex.toReplica = s.toReplica ∨
      ∃ i, Commits s i ∧ s.adjustCommitIndex.toReplica = { s.toReplica with commitIndex := i } := by
  unfold adjustCommitIndex
  split
  · exact .inl rfl
  · simp only [commitReconfiguration_replica]
    cases hscan : s.scan s.minMatch s.maxMatch with
    | none =>
        rcases commitAlone_replica s (s.commitIndex % 2 ^ 32) with heq | ⟨hone, heq⟩
        · exact .inl heq
        · exact .inr ⟨_, .alone hone, heq⟩
    | some i =>
        obtain ⟨hlo, hhi, hcount⟩ := scan_eq_some hscan
        rcases commitAlone_replica (s.commitTo i) (s.commitIndex % 2 ^ 32) with heq | ⟨hone, heq⟩
        · exact .inr ⟨i, .counted hlo hhi hcount, heq⟩
        · exact .inr ⟨_, .alone hone, heq⟩

@[simp] theorem adjustCommitIndex_log (s : Raft) : s.adjustCommitIndex.log = s.log := by
  rcases adjustCommitIndex_replica s with heq | ⟨i, -, heq⟩ <;> rw [heq]

end Draft.Raft
