import Mathlib.Logic.Function.Basic
import Draft.Consensus.Run

/-!
# Objects whose functions are one step

Threads call the functions of an object, each of which acts at one moment
between call and return.  What a client does with such an object, it also does
with any implementation that shows the same calls and returns.
-/

namespace Draft.Consensus

namespace Atomic

inductive Point (κ ρ : Type*) where
  | outside
  | called (call : κ)
  | returning (result : ρ)
  deriving DecidableEq, Repr

structure State (σ κ ρ ι : Type*) where
  value : σ
  point : ι → Point κ ρ

inductive Event (κ ρ ι : Type*) where
  | call (i : ι) (c : κ)
  | act (i : ι) (c : κ) (result : ρ)
  | ret (i : ι) (result : ρ)
  deriving DecidableEq, Repr

variable {σ κ ρ ι : Type*}

def State.init (value : σ) : State σ κ ρ ι := { value := value, point := fun _ => .outside }

variable [DecidableEq ι] [DecidableEq κ] [DecidableEq ρ]

def State.move (a : State σ κ ρ ι) (i : ι) (point : Point κ ρ) : State σ κ ρ ι :=
  { a with point := Function.update a.point i point }

omit [DecidableEq κ] [DecidableEq ρ] in
theorem State.move_point (a : State σ κ ρ ι) (i j : ι) (point : Point κ ρ) :
    (a.move i point).point j = if j = i then point else a.point j := by
  simp [State.move, Function.update_apply]

/-- The function acts at one moment between call and return, once the object is ready for it. -/
def step (spec : κ → σ → Option (σ × ρ)) (a : State σ κ ρ ι) :
    Event κ ρ ι → Option (State σ κ ρ ι)
  | .call i c => if a.point i = .outside then some (a.move i (.called c)) else none
  | .act i c result =>
      match spec c a.value with
      | some (value, r) =>
          if a.point i = .called c ∧ r = result then
            some { a.move i (.returning result) with value := value }
          else none
      | none => none
  | .ret i result => if a.point i = .returning result then some (a.move i .outside) else none

end Atomic

inductive Seen (κ ρ ι : Type*) where
  | call (i : ι) (c : κ)
  | ret (i : ι) (result : ρ)
  deriving DecidableEq, Repr

def Atomic.Event.seen {κ ρ ι : Type*} : Atomic.Event κ ρ ι → List (Seen κ ρ ι)
  | .call i c => [.call i c]
  | .act .. => []
  | .ret i result => [.ret i result]

/-! ## Clients -/

/-- A program around an object: what it does at a call or return, and on its own. -/
structure Client (κ ρ ι χ δ : Type*) where
  hears : χ → Seen κ ρ ι → Option χ
  acts : χ → δ → Option χ

inductive Joint (ε δ : Type*) where
  | object (e : ε)
  | client (d : δ)
  deriving DecidableEq, Repr

namespace Client

variable {κ ρ ι χ δ ω ω' ε ε' : Type*} (C : Client κ ρ ι χ δ)

def step (object : ω → ε → Option ω) (seen : ε → List (Seen κ ρ ι)) (s : ω × χ) :
    Joint ε δ → Option (ω × χ)
  | .object e =>
      (object s.1 e).bind fun o => (run C.hears s.2 (seen e)).map fun x => (o, x)
  | .client d => (C.acts s.2 d).map fun x => (s.1, x)

variable {C} {object : ω → ε → Option ω} {seen : ε → List (Seen κ ρ ι)}

theorem step_object {s t : ω × χ} {e : ε} :
    C.step object seen s (.object e) = some t ↔
      object s.1 e = some t.1 ∧ run C.hears s.2 (seen e) = some t.2 := by
  simp only [step, Option.bind_eq_some_iff, Option.map_eq_some_iff]
  constructor
  · rintro ⟨o, ho, x, hx, rfl⟩
    exact ⟨ho, hx⟩
  · rintro ⟨ho, hx⟩
    exact ⟨t.1, ho, t.2, hx, rfl⟩

theorem step_client {s t : ω × χ} {d : δ} :
    C.step object seen s (.client d) = some t ↔ t.1 = s.1 ∧ C.acts s.2 d = some t.2 := by
  simp only [step, Option.map_eq_some_iff]
  constructor
  · rintro ⟨x, hx, rfl⟩
    exact ⟨rfl, hx⟩
  · rintro ⟨ho, hx⟩
    exact ⟨t.2, hx, by rw [← ho]⟩

theorem run_object {o o' : ω} {x y : χ} {es : List ε} (hobject : run object o es = some o')
    (hclient : run C.hears x (es.flatMap seen) = some y) :
    run (C.step object seen) (o, x) (es.map .object) = some (o', y) := by
  induction es generalizing o x with
  | nil =>
      obtain rfl : o = o' := by simpa [run] using hobject
      obtain rfl : x = y := by simpa [run] using hclient
      rfl
  | cons e es ih =>
      obtain ⟨m, hm, hrest⟩ := run_cons.mp hobject
      rw [List.flatMap_cons, run_append_eq, Option.bind_eq_some_iff] at hclient
      obtain ⟨z, hz, hclient⟩ := hclient
      exact run_cons.mpr ⟨(m, z), step_object.mpr ⟨hm, hz⟩, ih hrest hclient⟩

/-- A client of an object does nothing that it could not do with one that shows the same. -/
theorem run_simulates {object' : ω' → ε' → Option ω'} {seen' : ε' → List (Seen κ ρ ι)}
    {R : ω → ω' → Prop}
    (follows : ∀ o o' e p, R o o' → object o e = some p →
      ∃ es p', run object' o' es = some p' ∧ es.flatMap seen' = seen e ∧ R p p')
    {s t : ω × χ} {o' : ω'} {es : List (Joint ε δ)} (start : R s.1 o')
    (hrun : run (C.step object seen) s es = some t) :
    ∃ es' p', run (C.step object' seen') (o', s.2) es' = some (p', t.2) ∧ R t.1 p' := by
  induction es generalizing s o' with
  | nil =>
      obtain rfl : s = t := by simpa [run] using hrun
      exact ⟨[], o', rfl, start⟩
  | cons e es ih =>
      obtain ⟨m, hm, hrest⟩ := run_cons.mp hrun
      cases e with
      | object e =>
          obtain ⟨hobject, hclient⟩ := step_object.mp hm
          obtain ⟨first, p, hfirst, hseen, hR⟩ := follows s.1 o' e m.1 start hobject
          obtain ⟨rest, p', hrun', hR'⟩ := ih hR hrest
          rw [← hseen] at hclient
          exact ⟨first.map .object ++ rest, p', run_append (run_object hfirst hclient) hrun', hR'⟩
      | client d =>
          obtain ⟨hsame, hclient⟩ := step_client.mp hm
          obtain ⟨rest, p', hrun', hR'⟩ := ih (hsame ▸ start) hrest
          exact ⟨.client d :: rest, p',
            run_cons.mpr ⟨(o', m.2), step_client.mpr ⟨rfl, hclient⟩, hrun'⟩, hR'⟩

end Client

end Draft.Consensus
