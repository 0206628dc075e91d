import Mathlib.Data.List.Basic
import Mathlib.Logic.Function.Basic

/-!
# Replaying updates

Updates of a map are applied in order.  A key has the value of its last update,
and two maps become the same exactly when they agree on the keys without one.
-/

namespace Draft

variable {κ ν : Type*} [DecidableEq κ] {f g : κ → ν} {updates rest : List (κ × ν)} {k : κ}

def replay (f : κ → ν) (updates : List (κ × ν)) : κ → ν :=
  updates.foldl (fun f u => Function.update f u.1 u.2) f

@[simp] theorem replay_nil : replay f [] = f := rfl

@[simp] theorem replay_cons (u : κ × ν) :
    replay f (u :: rest) = replay (Function.update f u.1 u.2) rest := rfl

theorem replay_append : replay f (updates ++ rest) = replay (replay f updates) rest :=
  List.foldl_append

theorem replay_of_notMem (h : k ∉ updates.map Prod.fst) : replay f updates k = f k := by
  induction updates generalizing f with
  | nil => rfl
  | cons u rest ih =>
      simp only [List.map_cons, List.mem_cons, not_or] at h
      rw [replay_cons, ih h.2, Function.update_of_ne h.1]

theorem replay_of_mem (h : k ∈ updates.map Prod.fst) : replay f updates k = replay g updates k := by
  induction updates generalizing f g with
  | nil => simp at h
  | cons u rest ih =>
      by_cases hrest : k ∈ rest.map Prod.fst
      · exact ih hrest
      · have hk : k = u.1 := by simpa [hrest] using h
        subst hk
        simp [replay_of_notMem hrest]

theorem replay_eq_iff :
    replay f updates = replay g updates ↔ ∀ k, k ∈ updates.map Prod.fst ∨ f k = g k := by
  constructor
  · intro h k
    by_cases hk : k ∈ updates.map Prod.fst
    · exact .inl hk
    · have hat := congrFun h k
      rw [replay_of_notMem hk, replay_of_notMem hk] at hat
      exact .inr hat
  · intro h
    funext k
    by_cases hk : k ∈ updates.map Prod.fst
    · exact replay_of_mem hk
    · rw [replay_of_notMem hk, replay_of_notMem hk]
      exact (h k).resolve_left hk

end Draft
