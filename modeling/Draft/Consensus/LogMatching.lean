import Mathlib.Data.List.Basic

/-!
# Log matching

Every log starts with a common base.  Above it an entry of term `t` was
created by the leader of `t`, and a log that holds the entry agrees with the
log of that leader up to it.  Two such logs then agree up to every entry they
hold with the same position and term.
-/

namespace Draft.Consensus

variable {α : Type*}

/-! ## Prefixes -/

theorem prefix_getElem? {p q : List α} (h : p <+: q) {i : Nat} {x : α}
    (hx : p[i]? = some x) : q[i]? = some x := by
  obtain ⟨rest, rfl⟩ := h
  obtain ⟨hi, -⟩ := List.getElem?_eq_some_iff.mp hx
  rw [List.getElem?_append_left hi]
  exact hx

theorem lt_length_of_getElem? {p : List α} {i : Nat} {x : α} (hx : p[i]? = some x) :
    i < p.length :=
  (List.getElem?_eq_some_iff.mp hx).1

theorem prefix_take_eq {p q : List α} (h : p <+: q) {k : Nat} (hk : k ≤ p.length) :
    q.take k = p.take k := by
  obtain ⟨rest, rfl⟩ := h
  rw [List.take_append_of_le_length hk]

theorem getElem?_eq_of_take_eq {p q : List α} {i k : Nat} (hik : i < k)
    (h : p.take k = q.take k) : p[i]? = q[i]? := by
  have := congrArg (fun l => l[i]?) h
  simpa [List.getElem?_take, hik] using this

theorem exists_longest {l : List (List α)} (hne : l ≠ [])
    (h : ∀ p ∈ l, ∀ q ∈ l, p <+: q ∨ q <+: p) : ∃ g ∈ l, ∀ p ∈ l, p <+: g := by
  induction l with
  | nil => exact absurd rfl hne
  | cons p l ih =>
      by_cases hnil : l = []
      · exact ⟨p, by simp, by simp [hnil]⟩
      · obtain ⟨g, hg, hall⟩ := ih hnil fun q hq r hr =>
          h q (List.mem_cons_of_mem p hq) r (List.mem_cons_of_mem p hr)
        rcases h p List.mem_cons_self g (List.mem_cons_of_mem p hg) with hle | hle
        · refine ⟨g, List.mem_cons_of_mem p hg, fun q hq => ?_⟩
          rcases List.mem_cons.mp hq with rfl | hq
          · exact hle
          · exact hall q hq
        · refine ⟨p, List.mem_cons_self, fun q hq => ?_⟩
          rcases List.mem_cons.mp hq with rfl | hq
          · exact List.prefix_rfl
          · exact (hall q hq).trans hle

/-! ## Leaders and the logs that follow them -/

/-- For each term whether it had a leader, and the log of that leader. -/
structure Leaders (α : Type*) where
  elected : Nat → Prop
  log : Nat → List α

section

variable (term : α → Nat) (base : List α)

/-- What later leaders and later entries of the same leaders leave true. -/
def Leaders.Grows (L M : Leaders α) : Prop :=
  ∀ t, L.elected t → M.elected t ∧ L.log t <+: M.log t

structure Follows (L : Leaders α) (g : List α) : Prop where
  base_start : base <+: g
  created : ∀ i x, base.length ≤ i → g[i]? = some x →
    L.elected (term x) ∧ g.take (i + 1) <+: L.log (term x)

variable {term base} {L M : Leaders α} {g h : List α}

theorem Leaders.Grows.refl (L : Leaders α) : L.Grows L :=
  fun _ ht => ⟨ht, List.prefix_refl _⟩

theorem Leaders.Grows.trans {L M K : Leaders α} (h₁ : L.Grows M) (h₂ : M.Grows K) :
    L.Grows K := by
  intro t ht
  have hM := h₁ t ht
  have hK := h₂ t hM.1
  exact ⟨hK.1, hM.2.trans hK.2⟩

theorem follows_base : Follows term base L base where
  base_start := List.prefix_refl _
  created := by
    intro i x hi hx
    exact absurd (lt_length_of_getElem? hx) (by omega)

theorem Follows.mono (hg : Follows term base L g) (grows : L.Grows M) :
    Follows term base M g where
  base_start := hg.base_start
  created := by
    intro i x hi hx
    obtain ⟨he, hp⟩ := hg.created i x hi hx
    exact ⟨(grows _ he).1, hp.trans (grows _ he).2⟩

theorem Follows.restrict (hg : Follows term base L g) (hb : base <+: h) (hp : h <+: g) :
    Follows term base L h where
  base_start := hb
  created := by
    intro i x hi hx
    obtain ⟨he, hc⟩ := hg.created i x hi (prefix_getElem? hp hx)
    rw [prefix_take_eq hp (lt_length_of_getElem? hx)] at hc
    exact ⟨he, hc⟩

theorem Follows.take (hg : Follows term base L g) {k : Nat} (hk : base.length ≤ k) :
    Follows term base L (g.take k) :=
  hg.restrict (List.prefix_take_iff.mpr ⟨hg.base_start, hk⟩) (List.take_prefix _ _)

/-- **Log matching**: one entry of the same term in the same place, one log up to it. -/
theorem Follows.agree (hg : Follows term base L g) (hh : Follows term base L h) {i : Nat}
    {x y : α} (hx : g[i]? = some x) (hy : h[i]? = some y) (hterm : term x = term y) :
    g.take (i + 1) = h.take (i + 1) := by
  rcases Nat.lt_or_ge i base.length with hi | hi
  · rw [prefix_take_eq hg.base_start hi, prefix_take_eq hh.base_start hi]
  · have hgi := lt_length_of_getElem? hx
    have hhi := lt_length_of_getElem? hy
    have hpg := (hg.created i x hi hx).2
    have hph := (hh.created i y hi hy).2
    rw [← hterm] at hph
    have hlen : (g.take (i + 1)).length = (h.take (i + 1)).length := by
      simp only [List.length_take]
      omega
    exact (List.prefix_of_prefix_length_le hpg hph (Nat.le_of_eq hlen)).eq_of_length hlen

theorem Follows.append (hg : Follows term base L g) {x : α} (he : L.elected (term x))
    (hlog : g ++ [x] <+: L.log (term x)) : Follows term base L (g ++ [x]) where
  base_start := hg.base_start.trans (List.prefix_append _ _)
  created := by
    intro i y hi hy
    rcases Nat.lt_or_ge i g.length with hig | hig
    · rw [List.getElem?_append_left hig] at hy
      rw [List.take_append_of_le_length hig]
      exact hg.created i y hi hy
    · have hlt := lt_length_of_getElem? hy
      obtain rfl : i = g.length := by
        simp only [List.length_append, List.length_singleton] at hlt
        omega
      obtain rfl : x = y := by simpa using hy
      exact ⟨he, (List.take_prefix _ _).trans hlog⟩

end

end Draft.Consensus
