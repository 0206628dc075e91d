import Draft.Foundation.ConfigChain

/-!
# What a consecutive log answers

In a log whose indices run from its base the lookups of the logger find the
sentry, the base, or the one entry with the index that was asked for.
-/

namespace Draft

/-! ## Filters that cut a list -/

theorem filter_eq_take {α : Type*} {p : α → Bool} {l : List α} {k : Nat}
    (hlow : ∀ x ∈ l.take k, p x = true) (hhigh : ∀ x ∈ l.drop k, p x = false) :
    l.filter p = l.take k := by
  conv_lhs => rw [← List.take_append_drop k l]
  rw [List.filter_append, List.filter_eq_self.mpr hlow,
    List.filter_eq_nil_iff.mpr (by simpa using hhigh), List.append_nil]

theorem filter_eq_drop {α : Type*} {p : α → Bool} {l : List α} {k : Nat}
    (hlow : ∀ x ∈ l.take k, p x = false) (hhigh : ∀ x ∈ l.drop k, p x = true) :
    l.filter p = l.drop k := by
  conv_lhs => rw [← List.take_append_drop k l]
  rw [List.filter_append, List.filter_eq_nil_iff.mpr (by simpa using hlow),
    List.filter_eq_self.mpr hhigh, List.nil_append]

/-! ## Lookups -/

namespace EntryLogger

variable {log : EntryLogger}

instance (log : EntryLogger) : Decidable log.Consecutive :=
  decidable_of_iff (∀ k : Fin log.entries.length,
      log.entries[k].index = log.lastIndex + k + 1)
    ⟨fun h k e he => by
      obtain ⟨hk, rfl⟩ := List.getElem?_eq_some_iff.mp he
      exact h ⟨k, hk⟩,
    fun h k => h k _ (List.getElem?_eq_getElem k.isLt)⟩

theorem Consecutive.mem_unique (h : log.Consecutive) {x y : LogEntry} (hx : x ∈ log.entries)
    (hy : y ∈ log.entries) (hindex : x.index = y.index) : x = y := by
  have hxget := h.get_mem hx
  rw [hindex, h.get_mem hy] at hxget
  exact (Option.some.inj hxget).symm

theorem Consecutive.exists_mem (h : log.Consecutive) {i : Nat} (hlo : log.lastIndex < i)
    (hhi : i ≤ log.lastIndex + log.entries.length) : ∃ x ∈ log.entries, x.index = i := by
  have hlt : i - log.lastIndex - 1 < log.entries.length := by omega
  refine ⟨_, List.getElem_mem hlt, ?_⟩
  have := h _ _ (List.getElem?_eq_getElem hlt)
  omega

theorem Consecutive.get_eq_some (h : log.Consecutive) {i : Nat} (hi : i ≠ 0) (x : LogEntry) :
    log.get i = some x ↔ x ∈ log.entries ∧ x.index = i := by
  constructor
  · intro hget
    rw [h.get_eq, if_neg hi] at hget
    split at hget
    · have := h _ _ hget
      exact ⟨List.mem_of_getElem? hget, by omega⟩
    · cases hget
  · rintro ⟨hx, rfl⟩
    exact h.get_mem hx

theorem Consecutive.mem_infos_of_get (h : log.Consecutive) {i : Nat} {x : LogEntry}
    (hget : log.get i = some x) : x ∈ log.infos ∧ x.index = i := by
  by_cases hi : i = 0
  · rw [h.get_eq, if_pos hi, Option.some.injEq] at hget
    subst hi hget
    exact ⟨List.mem_cons_self, rfl⟩
  · obtain ⟨hx, hindex⟩ := (h.get_eq_some hi x).mp hget
    exact ⟨List.mem_cons_of_mem _ hx, hindex⟩

theorem Consecutive.filter_from (h : log.Consecutive) (k : Nat) :
    (log.entries.filter fun e => log.lastIndex + k + 1 ≤ e.index ∧ e.index ≤ log.lastEntryIndex) =
      log.entries.drop k := by
  apply filter_eq_drop
  · intro e he
    rw [List.mem_take_iff_getElem] at he
    obtain ⟨j, hj, rfl⟩ := he
    have := h j _ (List.getElem?_eq_getElem (by omega))
    simp only [decide_eq_false_iff_not]
    omega
  · intro e he
    rw [h.lastEntryIndex_eq]
    have hlast := h.mem_bounds (List.mem_of_mem_drop he)
    rw [List.mem_drop_iff_getElem] at he
    obtain ⟨j, hj, rfl⟩ := he
    have := h (k + j) _ (List.getElem?_eq_getElem (by omega))
    simp only [decide_eq_true_eq]
    omega

theorem Consecutive.hasEntry_iff (h : log.Consecutive) {i : Nat} (hi : i ≠ 0) (t : Nat) :
    log.hasEntry i t = true ↔
      i = log.lastIndex ∧ t = log.lastTerm ∨ ∃ x ∈ log.entries, x.index = i ∧ x.term = t := by
  unfold hasEntry
  cases hget : log.get i with
  | none =>
      simp only [Bool.and_eq_true, decide_eq_true_eq]
      constructor
      · rintro ⟨rfl, rfl⟩
        simp
      · rintro (⟨rfl, rfl⟩ | ⟨x, hx, rfl, -⟩)
        · simp
        · rw [h.get_mem hx] at hget
          cases hget
  | some e =>
      obtain ⟨he, rfl⟩ := (h.get_eq_some hi e).mp hget
      have hbase := h.mem_bounds he
      simp only [decide_true, Bool.true_and, decide_eq_true_eq]
      constructor
      · intro ht
        exact .inr ⟨e, he, rfl, ht⟩
      · rintro (⟨hlast, -⟩ | ⟨x, hx, hindex, ht⟩)
        · omega
        · rw [← h.mem_unique hx he hindex, ht]

theorem Consecutive.entryConflicted_iff (h : log.Consecutive) {i : Nat} (hi : i ≠ 0) (t : Nat) :
    log.entryConflicted i t = true ↔ ∃ x ∈ log.entries, x.index = i ∧ x.term ≠ t := by
  unfold entryConflicted
  cases hget : log.get i with
  | none =>
      simp only [Bool.false_eq_true, false_iff]
      rintro ⟨x, hx, rfl, -⟩
      rw [h.get_mem hx] at hget
      cases hget
  | some e =>
      obtain ⟨he, rfl⟩ := (h.get_eq_some hi e).mp hget
      simp only [decide_eq_true_eq]
      constructor
      · intro ht
        exact ⟨e, he, rfl, ht⟩
      · rintro ⟨x, hx, hindex, ht⟩
        rwa [← h.mem_unique hx he hindex]

theorem chop_entries {i : Nat} {kept : EntryLogger} (hchop : log.chop i = some kept) :
    kept.lastIndex = log.lastIndex ∧
      kept.entries = log.entries.take (i - log.lastIndex - 1) := by
  unfold chop at hchop
  split at hchop
  · cases hchop
  · cases hchop
    simp

theorem Consecutive.mem_take (h : log.Consecutive) {i : Nat} {x : LogEntry} :
    x ∈ log.entries.take (i - log.lastIndex - 1) ↔ x ∈ log.entries ∧ x.index < i := by
  rw [List.mem_take_iff_getElem, List.mem_iff_getElem]
  constructor
  · rintro ⟨k, hk, rfl⟩
    have := h k _ (List.getElem?_eq_getElem (by omega))
    exact ⟨⟨k, by omega, rfl⟩, by omega⟩
  · rintro ⟨⟨k, hk, rfl⟩, hlt⟩
    have := h k _ (List.getElem?_eq_getElem hk)
    exact ⟨k, by omega, rfl⟩

theorem Consecutive.append (h : log.Consecutive) {batch : List LogEntry}
    (hbatch : ∀ k x, batch[k]? = some x →
      x.index = log.lastIndex + log.entries.length + k + 1) : (log.append batch).Consecutive := by
  intro k x hx
  change (log.entries ++ batch)[k]? = some x at hx
  change x.index = log.lastIndex + k + 1
  rcases Nat.lt_or_ge k log.entries.length with hk | hk
  · rw [List.getElem?_append_left hk] at hx
    exact h k x hx
  · rw [List.getElem?_append_right hk] at hx
    have := hbatch _ x hx
    omega

end EntryLogger

end Draft
