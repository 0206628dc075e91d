import Draft.Foundation.Bytes

/-!
# Addresses

Splitting a joined list of addresses gives the list back, as long as there is
one and no address has a comma.
-/

namespace Draft

variable {sep : UInt8} {piece text : Bytes} {pieces : List Bytes}

theorem split_ne_nil (sep : UInt8) (text : Bytes) : split sep text ≠ [] := by
  induction text with
  | nil => simp [split]
  | cons c rest ih =>
      rw [split]
      split
      · simp
      · split <;> simp

theorem not_mem_of_mem_split : ∀ piece ∈ split sep text, sep ∉ piece := by
  induction text with
  | nil => simp [split]
  | cons c rest ih =>
      rw [split]
      split
      · simpa using ih
      · rename_i hc
        split
        · simpa using Ne.symm hc
        · rename_i first others hsplit
          rw [hsplit] at ih
          simp only [List.mem_cons, forall_eq_or_imp] at ih ⊢
          refine ⟨?_, ih.2⟩
          simpa [Ne.symm hc] using ih.1

theorem mem_of_mem_split {c : UInt8} (h : piece ∈ split sep text) (hc : c ∈ piece) : c ∈ text := by
  induction text generalizing piece with
  | nil => simp_all [split]
  | cons d rest ih =>
      rw [split] at h
      split at h
      · rcases List.mem_cons.mp h with rfl | h
        · cases hc
        · exact List.mem_cons_of_mem _ (ih h hc)
      · split at h
        · rename_i hnil
          exact absurd hnil (split_ne_nil sep rest)
        · rename_i first others hsplit
          rw [hsplit] at ih
          rcases List.mem_cons.mp h with rfl | h
          · rcases List.mem_cons.mp hc with rfl | hc
            · exact List.mem_cons_self
            · exact List.mem_cons_of_mem _ (ih List.mem_cons_self hc)
          · exact List.mem_cons_of_mem _ (ih (List.mem_cons_of_mem _ h) hc)

theorem split_append_sep (h : sep ∉ piece) (text : Bytes) :
    split sep (piece ++ sep :: text) = piece :: split sep text := by
  induction piece with
  | nil => simp [split]
  | cons c rest ih =>
      rw [List.mem_cons, not_or] at h
      rw [List.cons_append, split, if_neg (Ne.symm h.1), ih h.2]

theorem split_of_not_mem (h : sep ∉ piece) : split sep piece = [piece] := by
  induction piece with
  | nil => rfl
  | cons c rest ih =>
      rw [List.mem_cons, not_or] at h
      rw [split, if_neg (Ne.symm h.1), ih h.2]

theorem not_mem_of_split_eq (h : split sep text = [piece]) : sep ∉ text := by
  induction text generalizing piece with
  | nil => simp
  | cons c rest ih =>
      rw [split] at h
      split at h
      · simp [split_ne_nil] at h
      · rename_i hc
        split at h
        · rename_i hnil
          exact absurd hnil (split_ne_nil sep rest)
        · rename_i first others hsplit
          obtain rfl : others = [] := by simpa using (List.cons.inj h).2
          simpa [Ne.symm hc] using ih hsplit

theorem split_joinComma (hne : pieces ≠ []) (h : ∀ piece ∈ pieces, 44 ∉ piece) :
    split 44 (joinComma pieces) = pieces := by
  induction pieces with
  | nil => exact absurd rfl hne
  | cons piece rest ih =>
      have hpiece := h piece List.mem_cons_self
      cases rest with
      | nil => exact split_of_not_mem hpiece
      | cons next rest =>
          have hrest := ih (List.cons_ne_nil next rest) fun x hx => h x (List.mem_cons_of_mem _ hx)
          have hjoin : joinComma (piece :: next :: rest) =
              piece ++ 44 :: joinComma (next :: rest) := by
            rw [joinComma, List.append_assoc]
            · rfl
            · exact fun h => by cases h
          rw [hjoin, split_append_sep hpiece, hrest]

end Draft
