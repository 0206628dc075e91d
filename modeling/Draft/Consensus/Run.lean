import Mathlib.Data.List.Basic
import Mathlib.Logic.Function.Iterate

/-!
# Runs of a step function

A run applies a list of events one after the other; it is undefined as soon as
one step is.  An invariant of one step is an invariant of every run, also when
the step needs a condition that is known along the run.  A system without events
takes one step after the other; it attains what holds after some of them.
-/

namespace Draft.Consensus

variable {σ ε : Type*} (step : σ → ε → Option σ)

def run : σ → List ε → Option σ
  | s, [] => some s
  | s, e :: es => (step s e).bind fun t => run t es

/-- `C` holds of each state of the run with the event that is taken there. -/
def Along (C : σ → ε → Prop) : σ → List ε → Prop
  | _, [] => True
  | s, e :: es => C s e ∧ ∀ t, step s e = some t → Along C t es

instance decidableAlong {C : σ → ε → Prop} [∀ s e, Decidable (C s e)] :
    (s : σ) → (es : List ε) → Decidable (Along step C s es)
  | _, [] => isTrue trivial
  | s, e :: es =>
      match h : step s e with
      | none => decidable_of_iff (C s e) ⟨fun hC => ⟨hC, by simp [h]⟩, And.left⟩
      | some t =>
          have rest : Decidable (Along step C t es) := decidableAlong t es
          have hstep : (∀ u, step s e = some u → Along step C u es) ↔ Along step C t es := by
            simp [h]
          decidable_of_iff (C s e ∧ Along step C t es) (and_congr_right fun _ => hstep.symm)

variable {step}

theorem run_cons {s t : σ} {e : ε} {es : List ε} :
    run step s (e :: es) = some t ↔ ∃ m, step s e = some m ∧ run step m es = some t := by
  simp [run, Option.bind_eq_some_iff]

theorem run_append {s t u : σ} {es es' : List ε} (h : run step s es = some t)
    (h' : run step t es' = some u) : run step s (es ++ es') = some u := by
  induction es generalizing s with
  | nil =>
      obtain rfl : s = t := by simpa [run] using h
      exact h'
  | cons e es ih =>
      obtain ⟨m, hm, hrest⟩ := run_cons.mp h
      exact run_cons.mpr ⟨m, hm, ih hrest⟩

theorem run_append_eq (s : σ) (es es' : List ε) :
    run step s (es ++ es') = (run step s es).bind fun t => run step t es' := by
  induction es generalizing s with
  | nil => rfl
  | cons e es ih =>
      rw [List.cons_append, run, run, Option.bind_assoc]
      exact Option.bind_congr fun t _ => ih t

theorem run_rest {s t u : σ} {es es' : List ε} (hrun : run step s (es ++ es') = some u)
    (hfirst : run step s es = some t) : run step t es' = some u := by
  induction es generalizing s with
  | nil =>
      obtain rfl : s = t := by simpa [run] using hfirst
      exact hrun
  | cons e es ih =>
      obtain ⟨m, hm, hrest⟩ := run_cons.mp hfirst
      obtain ⟨m', hm', hrest'⟩ := run_cons.mp hrun
      obtain rfl : m = m' := Option.some.inj (hm.symm.trans hm')
      exact ih hrest' hrest

/-- The run rule: what each step preserves under `C`, a run along `C` preserves. -/
theorem run_invariant {C : σ → ε → Prop} {P : σ → Prop}
    (preserved : ∀ s e t, C s e → P s → step s e = some t → P t)
    {s t : σ} {es : List ε} (along : Along step C s es) (start : P s)
    (hrun : run step s es = some t) : P t := by
  induction es generalizing s with
  | nil =>
      obtain rfl : s = t := by simpa [run] using hrun
      exact start
  | cons e es ih =>
      obtain ⟨m, hm, hrest⟩ := run_cons.mp hrun
      exact ih (along.2 m hm) (preserved s e m along.1 start hm) hrest

theorem Along.split {C : σ → ε → Prop} {s t : σ} {es es' : List ε}
    (h : Along step C s (es ++ es')) (hrun : run step s es = some t) :
    Along step C s es ∧ Along step C t es' := by
  induction es generalizing s with
  | nil =>
      obtain rfl : s = t := by simpa [run] using hrun
      exact ⟨trivial, h⟩
  | cons e es ih =>
      obtain ⟨m, hm, hrest⟩ := run_cons.mp hrun
      obtain ⟨hes, hes'⟩ := ih (h.2 m hm) hrest
      refine ⟨⟨h.1, fun m' hm' => ?_⟩, hes'⟩
      rw [hm] at hm'
      exact Option.some.inj hm' ▸ hes

theorem along_of_forall {C : σ → ε → Prop} (h : ∀ s e, C s e) (s : σ) (es : List ε) :
    Along step C s es := by
  induction es generalizing s with
  | nil => trivial
  | cons e es ih => exact ⟨h s e, fun t _ => ih t⟩

theorem along_of_events {P : ε → Prop} {es : List ε} (h : ∀ e ∈ es, P e) (s : σ) :
    Along step (fun _ e => P e) s es := by
  induction es generalizing s with
  | nil => trivial
  | cons e es ih =>
      rw [List.forall_mem_cons] at h
      exact ⟨h.1, fun t _ => ih h.2 t⟩

theorem run_preserves {P : σ → Prop} (preserved : ∀ s e t, P s → step s e = some t → P t)
    {s t : σ} {es : List ε} (start : P s) (hrun : run step s es = some t) : P t :=
  run_invariant (C := fun _ _ => True) (fun s e t _ => preserved s e t)
    (along_of_forall (fun _ _ => trivial) s es) start hrun

/-- The simulation rule: a second system that follows each step follows every run. -/
theorem run_simulation {τ : Type*} {step' : τ → ε → Option τ} {R : σ → τ → Prop} {P : ε → Prop}
    (follows : ∀ s s' e t, P e → R s s' → step s e = some t → ∃ t', step' s' e = some t' ∧ R t t')
    {s t : σ} {s' : τ} {es : List ε} (events : ∀ e ∈ es, P e) (start : R s s')
    (hrun : run step s es = some t) : ∃ t', run step' s' es = some t' ∧ R t t' := by
  induction es generalizing s s' with
  | nil =>
      obtain rfl : s = t := by simpa [run] using hrun
      exact ⟨s', rfl, start⟩
  | cons e es ih =>
      obtain ⟨m, hm, hrest⟩ := run_cons.mp hrun
      obtain ⟨m', hm', hR⟩ := follows s s' e m (events e List.mem_cons_self) start hm
      obtain ⟨t', ht', hR'⟩ := ih (fun x hx => events x (List.mem_cons_of_mem e hx)) hR hrest
      exact ⟨t', run_cons.mpr ⟨m', hm', ht'⟩, hR'⟩

/-- The same where a step is followed by any number of them that show the same. -/
theorem run_stuttering {τ ε' ν : Type*} {step' : τ → ε' → Option τ} {view : ε → List ν}
    {view' : ε' → List ν} {R : σ → τ → Prop}
    (follows : ∀ s s' e t, R s s' → step s e = some t →
      ∃ es' t', run step' s' es' = some t' ∧ es'.flatMap view' = view e ∧ R t t')
    {s t : σ} {s' : τ} {es : List ε} (start : R s s') (hrun : run step s es = some t) :
    ∃ es' t', run step' s' es' = some t' ∧ es'.flatMap view' = es.flatMap view ∧ R t t' := by
  induction es generalizing s s' with
  | nil =>
      obtain rfl : s = t := by simpa [run] using hrun
      exact ⟨[], s', rfl, rfl, start⟩
  | cons e es ih =>
      obtain ⟨m, hm, hrest⟩ := run_cons.mp hrun
      obtain ⟨first, m', hm', hview, hR⟩ := follows s s' e m start hm
      obtain ⟨rest, t', ht', hviews, hR'⟩ := ih hR hrest
      refine ⟨first ++ rest, t', run_append hm' ht', ?_, hR'⟩
      rw [List.flatMap_append, List.flatMap_cons, hview, hviews]

theorem Along.and {C D : σ → ε → Prop} {s : σ} {es : List ε}
    (hC : Along step C s es) (hD : Along step D s es) :
    Along step (fun s e => C s e ∧ D s e) s es := by
  induction es generalizing s with
  | nil => trivial
  | cons e es ih =>
      exact ⟨⟨hC.1, hD.1⟩, fun t ht => ih (hC.2 t ht) (hD.2 t ht)⟩

theorem Along.strengthen {C D : σ → ε → Prop} {P : σ → Prop}
    (preserved : ∀ s e t, C s e → P s → step s e = some t → P t)
    (implies : ∀ s e, C s e → P s → D s e) {s : σ} {es : List ε} (along : Along step C s es)
    (start : P s) : Along step D s es := by
  induction es generalizing s with
  | nil => trivial
  | cons e es ih =>
      refine ⟨implies s e along.1 start, fun t ht => ?_⟩
      exact ih (along.2 t ht) (preserved s e t along.1 start ht)

/-! ## Without events -/

section Function

variable {f : σ → σ} {P : σ → Prop} {s : σ}

def Attains (f : σ → σ) (P : σ → Prop) (s : σ) : Prop := ∃ k, P (f^[k] s)

theorem Attains.here (h : P s) : Attains f P s := ⟨0, h⟩

theorem Attains.of_step (h : Attains f P (f s)) : Attains f P s := by
  obtain ⟨k, hk⟩ := h
  exact ⟨k + 1, hk⟩

theorem attains_iff_step (h : ¬ P s) : Attains f P s ↔ Attains f P (f s) := by
  refine ⟨?_, Attains.of_step⟩
  rintro ⟨k, hk⟩
  cases k with
  | zero => exact absurd hk h
  | succ k => exact ⟨k, hk⟩

theorem not_attains {I : σ → Prop} (start : I s) (preserved : ∀ t, I t → I (f t))
    (excludes : ∀ t, I t → ¬ P t) : ¬ Attains f P s := by
  rintro ⟨k, hk⟩
  have hrun : ∀ n, I (f^[n] s) := by
    intro n
    induction n with
    | zero => exact start
    | succ n ih =>
        rw [Function.iterate_succ_apply']
        exact preserved _ ih
  exact excludes _ (hrun k) hk

end Function

end Draft.Consensus
