import Mathlib.Data.List.Infix

/-!
# Texts with parts replaced

`replace_all` puts another text in the place of every occurrence of a text, from
the left and without overlap; `find_last_of` cuts a text at the last occurrence
of a character.
-/

namespace Draft

variable {α : Type*} [DecidableEq α]

/-- `replace_all` while `skip` characters of an occurrence are still to be passed over. -/
def replaceFrom (what sub : List α) : Nat → List α → List α
  | _, [] => []
  | skip + 1, _ :: rest => replaceFrom what sub skip rest
  | 0, c :: rest =>
      if what <+: c :: rest then sub ++ replaceFrom what sub (what.length - 1) rest
      else c :: replaceFrom what sub 0 rest

def replaceAll (what sub text : List α) : List α := replaceFrom what sub 0 text

/-- `find_last_of`: what is in front of the last occurrence, and what is behind it. -/
def cutLast (sep : α) : List α → Option (List α × List α)
  | [] => none
  | c :: rest =>
      match cutLast sep rest with
      | some (before, after) => some (c :: before, after)
      | none => if c = sep then some ([], rest) else none

/-! ## Replacing -/

section Replace

variable {what sub text rest : List α} {c x : α}

theorem replaceFrom_drop (what sub : List α) (skip : Nat) (text : List α) :
    replaceFrom what sub skip text = replaceAll what sub (text.drop skip) := by
  induction skip generalizing text with
  | zero => rw [List.drop_zero, replaceAll]
  | succ skip ih =>
      cases text with
      | nil => rw [List.drop_nil, replaceAll, replaceFrom, replaceFrom]
      | cons c rest => rw [replaceFrom, ih, List.drop_succ_cons]

@[simp] theorem replaceAll_nil (what sub : List α) : replaceAll what sub [] = [] := by
  rw [replaceAll, replaceFrom]

theorem replaceAll_cons_of_not (h : ¬ what <+: c :: rest) (sub : List α) :
    replaceAll what sub (c :: rest) = c :: replaceAll what sub rest := by
  rw [replaceAll, replaceFrom, if_neg h, replaceAll]

theorem replaceAll_append (hne : what ≠ []) (sub text : List α) :
    replaceAll what sub (what ++ text) = sub ++ replaceAll what sub text := by
  cases what with
  | nil => exact absurd rfl hne
  | cons w what =>
      rw [List.cons_append, replaceAll, replaceFrom, if_pos ⟨text, by simp⟩, replaceFrom_drop]
      simp

theorem replaceAll_of_not_infix (h : ¬ what <:+: text) : replaceAll what sub text = text := by
  induction text with
  | nil => rw [replaceAll_nil]
  | cons c rest ih =>
      rw [replaceAll_cons_of_not (fun hprefix => h hprefix.isInfix),
        ih fun hrest => h (List.infix_cons hrest)]

theorem length_replaceAll_le (hne : what ≠ []) (hle : sub.length ≤ what.length) (text : List α) :
    (replaceAll what sub text).length ≤ text.length := by
  induction h : text.length using Nat.strong_induction_on generalizing text with
  | _ n ih =>
      subst h
      cases text with
      | nil => simp
      | cons c rest =>
          by_cases hprefix : what <+: c :: rest
          · obtain ⟨after, hafter⟩ := hprefix
            have hlength := congrArg List.length hafter
            have hpos := List.length_pos_of_ne_nil hne
            rw [List.length_append] at hlength
            have := ih after.length (by omega) after rfl
            rw [← hafter, replaceAll_append hne, List.length_append, List.length_append]
            omega
          · have := ih rest.length (by simp) rest rfl
            rw [replaceAll_cons_of_not hprefix, List.length_cons, List.length_cons]
            omega

theorem length_replaceAll_lt (hlt : sub.length < what.length) (h : what <:+: text) :
    (replaceAll what sub text).length < text.length := by
  have hne : what ≠ [] := List.ne_nil_of_length_pos (by omega)
  induction text with
  | nil => exact absurd (List.infix_nil.mp h) hne
  | cons c rest ih =>
      by_cases hprefix : what <+: c :: rest
      · obtain ⟨after, hafter⟩ := hprefix
        have := length_replaceAll_le hne hlt.le after
        rw [← hafter, replaceAll_append hne, List.length_append, List.length_append]
        omega
      · have := ih ((List.infix_cons_iff.mp h).resolve_left hprefix)
        rw [replaceAll_cons_of_not hprefix, List.length_cons, List.length_cons]
        omega

theorem replaceAll_eq_self_iff (hlt : sub.length < what.length) :
    replaceAll what sub text = text ↔ ¬ what <:+: text := by
  constructor
  · intro h hinfix
    have := length_replaceAll_lt hlt hinfix
    rw [h] at this
    omega
  · exact replaceAll_of_not_infix

theorem mem_replaceFrom {skip : Nat} (h : x ∈ replaceFrom what sub skip text) :
    x ∈ text ∨ x ∈ sub := by
  induction text generalizing skip with
  | nil => simp [replaceFrom] at h
  | cons c rest ih =>
      have later : ∀ {skip}, x ∈ replaceFrom what sub skip rest → x ∈ c :: rest ∨ x ∈ sub :=
        fun h => (ih h).imp_left (List.mem_cons_of_mem c)
      cases skip with
      | succ skip => exact later h
      | zero =>
          rw [replaceFrom] at h
          split at h
          · rcases List.mem_append.mp h with h | h
            · exact .inr h
            · exact later h
          · rcases List.mem_cons.mp h with rfl | h
            · exact .inl List.mem_cons_self
            · exact later h

theorem mem_replaceAll (h : x ∈ replaceAll what sub text) : x ∈ text ∨ x ∈ sub :=
  mem_replaceFrom h

end Replace

/-! ## Cutting -/

section Cut

variable {sep : α} {back : List α}

theorem cutLast_of_not_mem (h : sep ∉ back) : cutLast sep back = none := by
  induction back with
  | nil => rfl
  | cons c rest ih =>
      rw [List.mem_cons, not_or] at h
      rw [cutLast, ih h.2]
      exact if_neg (Ne.symm h.1)

theorem cutLast_append_sep (h : sep ∉ back) (front : List α) :
    cutLast sep (front ++ sep :: back) = some (front, back) := by
  induction front with
  | nil =>
      rw [List.nil_append, cutLast, cutLast_of_not_mem h]
      exact if_pos rfl
  | cons c front ih => rw [List.cons_append, cutLast, ih]

theorem cutLast_append_of_mem (h : sep ∈ back) :
    ∃ before after, ∀ front, cutLast sep (front ++ back) = some (front ++ before, after) := by
  obtain ⟨before, after, hback⟩ : ∃ before after, cutLast sep back = some (before, after) := by
    induction back with
    | nil => cases h
    | cons c rest ih =>
        by_cases hrest : sep ∈ rest
        · obtain ⟨before, after, hrest⟩ := ih hrest
          exact ⟨c :: before, after, by rw [cutLast, hrest]⟩
        · obtain rfl : c = sep := ((List.mem_cons.mp h).resolve_right hrest).symm
          exact ⟨[], rest, cutLast_append_sep hrest []⟩
  refine ⟨before, after, fun front => ?_⟩
  induction front with
  | nil => exact hback
  | cons c front ih => rw [List.cons_append, cutLast, ih, List.cons_append]

end Cut

end Draft
