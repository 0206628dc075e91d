import Mathlib.Algebra.BigOperators.Group.Finset.Piecewise
import Mathlib.Data.Fintype.Basic
import Draft.Consensus.Atomic

/-!
# Monitors

An object whose functions run under one mutex.  A function may wait on a
condition variable for a state of the object, and it may wake one waiting
thread after the mutex is released.  Whatever the threads do in whatever order,
they see an object each of whose functions is one step; and a thread sleeps
only while there is nothing for it or somebody is on the way to it.
-/

namespace Draft.Consensus

theorem sum_change {ι : Type*} [Fintype ι] {f g : ι → Nat} {i : ι}
    (h : ∀ j, j ≠ i → f j = g j) : ∑ j, f j + g i = ∑ j, g j + f i := by
  classical
  have hrest : ∑ j ∈ Finset.univ.erase i, f j = ∑ j ∈ Finset.univ.erase i, g j :=
    Finset.sum_congr rfl fun j hj => h j (Finset.ne_of_mem_erase hj)
  have hf := Finset.add_sum_erase Finset.univ f (Finset.mem_univ i)
  have hg := Finset.add_sum_erase Finset.univ g (Finset.mem_univ i)
  omega

/-- The functions of an object: its state `σ`, the calls `κ` and their locals `ρ`. -/
structure Monitor (σ κ ρ : Type*) where
  /-- The predicate of the wait; a call without one is always ready. -/
  ready : κ → σ → Bool
  locals : ρ
  /-- The statements behind the wait. -/
  body : κ → List (σ × ρ → σ × ρ)
  notifies : κ → Bool

namespace Monitor

variable {σ κ ρ ι : Type*}

inductive Point (κ ρ : Type*) where
  | outside
  | locking (call : κ)
  /-- With the mutex, before the predicate. -/
  | testing (call : κ)
  | asleep (call : κ)
  | inside (call : κ) (done : Nat) (locals : ρ)
  /-- Without the mutex again, before `notify_one`. -/
  | notifying (result : ρ)
  | returning (result : ρ)
  deriving DecidableEq, Repr

def Point.isAsleep : Point κ ρ → Bool
  | .asleep _ => true
  | _ => false

structure State (σ κ ρ ι : Type*) where
  value : σ
  owner : Option ι
  point : ι → Point κ ρ

inductive Event (κ ρ ι : Type*) where
  | call (i : ι) (c : κ)
  | lock (i : ι)
  | test (i : ι)
  /-- Without a notification. -/
  | wake (i : ι)
  | statement (i : ι)
  | unlock (i : ι)
  /-- `notify_one`, and whom it wakes. -/
  | notify (i : ι) (woken : Option ι)
  | ret (i : ι) (result : ρ)
  deriving DecidableEq, Repr

def Event.seen : Event κ ρ ι → List (Seen κ ρ ι)
  | .call i c => [.call i c]
  | .ret i result => [.ret i result]
  | _ => []

namespace State

variable [DecidableEq ι]

def init (value : σ) : State σ κ ρ ι :=
  { value := value, owner := none, point := fun _ => .outside }

def move (s : State σ κ ρ ι) (i : ι) (point : Point κ ρ) : State σ κ ρ ι :=
  { s with point := Function.update s.point i point }

variable (s : State σ κ ρ ι) (i j : ι) (point : Point κ ρ)

@[simp] theorem move_value : (s.move i point).value = s.value := rfl

@[simp] theorem move_owner : (s.move i point).owner = s.owner := rfl

theorem move_point : (s.move i point).point j = if j = i then point else s.point j := by
  simp [move, Function.update_apply]

end State

variable [DecidableEq ι] (m : Monitor σ κ ρ)

section Step

variable [DecidableEq ρ] [Fintype ι]

def step (s : State σ κ ρ ι) : Event κ ρ ι → Option (State σ κ ρ ι)
  | .call i c =>
      match s.point i with
      | .outside => some (s.move i (.locking c))
      | _ => none
  | .lock i =>
      match s.point i, s.owner with
      | .locking c, none => some { s.move i (.testing c) with owner := some i }
      | _, _ => none
  | .test i =>
      match s.point i with
      | .testing c =>
          if m.ready c s.value then some (s.move i (.inside c 0 m.locals))
          -- the wait gives the mutex back
          else some { s.move i (.asleep c) with owner := none }
      | _ => none
  | .wake i =>
      match s.point i with
      | .asleep c => some (s.move i (.locking c))
      | _ => none
  | .statement i =>
      match s.point i with
      | .inside c done locals =>
          (m.body c)[done]?.map fun f =>
            { s.move i (.inside c (done + 1) (f (s.value, locals)).2) with
              value := (f (s.value, locals)).1 }
      | _ => none
  | .unlock i =>
      match s.point i with
      | .inside c done locals =>
          if (m.body c).length ≤ done then
            some { s.move i (if m.notifies c then .notifying locals else .returning locals) with
              owner := none }
          else none
      | _ => none
  | .notify i woken =>
      match s.point i with
      | .notifying result =>
          match woken with
          | some j =>
              match s.point j with
              | .asleep c => some ((s.move i (.returning result)).move j (.locking c))
              | _ => none
          | none =>
              if ∀ j, (s.point j).isAsleep = false then some (s.move i (.returning result))
              else none
      | _ => none
  | .ret i result =>
      match s.point i with
      | .returning r => if r = result then some (s.move i .outside) else none
      | _ => none

end Step

/-! ## What a step can do -/

variable {m} {s t : State σ κ ρ ι}

inductive Steps (m : Monitor σ κ ρ) (s : State σ κ ρ ι) : Event κ ρ ι → State σ κ ρ ι → Prop
  | call {i : ι} {c : κ} (hpoint : s.point i = .outside) :
      Steps m s (.call i c) (s.move i (.locking c))
  | lock {i : ι} {c : κ} (hpoint : s.point i = .locking c) (hfree : s.owner = none) :
      Steps m s (.lock i) { s.move i (.testing c) with owner := some i }
  | pass {i : ι} {c : κ} (hpoint : s.point i = .testing c) (hready : m.ready c s.value = true) :
      Steps m s (.test i) (s.move i (.inside c 0 m.locals))
  | sleep {i : ι} {c : κ} (hpoint : s.point i = .testing c) (hready : m.ready c s.value = false) :
      Steps m s (.test i) { s.move i (.asleep c) with owner := none }
  | wake {i : ι} {c : κ} (hpoint : s.point i = .asleep c) :
      Steps m s (.wake i) (s.move i (.locking c))
  | statement {i : ι} {c : κ} {done : Nat} {locals : ρ} {f : σ × ρ → σ × ρ}
      (hpoint : s.point i = .inside c done locals) (hf : (m.body c)[done]? = some f) :
      Steps m s (.statement i)
        { s.move i (.inside c (done + 1) (f (s.value, locals)).2) with
          value := (f (s.value, locals)).1 }
  | unlock {i : ι} {c : κ} {done : Nat} {locals : ρ} (hpoint : s.point i = .inside c done locals)
      (hdone : (m.body c).length ≤ done) :
      Steps m s (.unlock i)
        { s.move i (if m.notifies c then .notifying locals else .returning locals) with
          owner := none }
  | rouse {i j : ι} {c : κ} {result : ρ} (hpoint : s.point i = .notifying result)
      (hasleep : s.point j = .asleep c) :
      Steps m s (.notify i (some j)) ((s.move i (.returning result)).move j (.locking c))
  | silent {i : ι} {result : ρ} (hpoint : s.point i = .notifying result)
      (hawake : ∀ j, (s.point j).isAsleep = false) :
      Steps m s (.notify i none) (s.move i (.returning result))
  | ret {i : ι} {result : ρ} (hpoint : s.point i = .returning result) :
      Steps m s (.ret i result) (s.move i .outside)

theorem steps_of_step [DecidableEq ρ] [Fintype ι] {e : Event κ ρ ι}
    (h : m.step s e = some t) : Steps m s e t := by
  cases e with
  | call i c =>
      simp only [step] at h
      split at h
      · rename_i hpoint
        cases h
        exact .call hpoint
      · cases h
  | lock i =>
      simp only [step] at h
      split at h
      · rename_i c hpoint hfree
        cases h
        exact .lock hpoint hfree
      · cases h
  | test i =>
      simp only [step] at h
      split at h
      · rename_i c hpoint
        split at h
        · rename_i hready
          cases h
          exact .pass hpoint hready
        · rename_i hready
          cases h
          exact .sleep hpoint (Bool.eq_false_iff.mpr hready)
      · cases h
  | wake i =>
      simp only [step] at h
      split at h
      · rename_i c hpoint
        cases h
        exact .wake hpoint
      · cases h
  | statement i =>
      simp only [step] at h
      split at h
      · rename_i c done locals hpoint
        obtain ⟨f, hf, rfl⟩ := Option.map_eq_some_iff.mp h
        exact .statement hpoint hf
      · cases h
  | unlock i =>
      simp only [step] at h
      split at h
      · rename_i c done locals hpoint
        split at h
        · rename_i hdone
          cases h
          exact .unlock hpoint hdone
        · cases h
      · cases h
  | notify i woken =>
      simp only [step] at h
      split at h
      · rename_i result hpoint
        cases woken with
        | some j =>
            simp only at h
            split at h
            · rename_i c hasleep
              cases h
              exact .rouse hpoint hasleep
            · cases h
        | none =>
            simp only at h
            split at h
            · rename_i hawake
              cases h
              exact .silent hpoint hawake
            · cases h
      · cases h
  | ret i result =>
      simp only [step] at h
      split at h
      · rename_i r hpoint
        split at h
        · rename_i hr
          subst hr
          cases h
          exact .ret hpoint
        · cases h
      · cases h

/-! ## Every function is one step -/

def Point.atomic : Point κ ρ → Atomic.Point κ ρ
  | .outside => .outside
  | .locking c | .testing c | .asleep c | .inside c _ _ => .called c
  | .notifying result | .returning result => .returning result

def Point.isHolding : Point κ ρ → Bool
  | .testing _ | .inside _ _ _ => true
  | _ => false

def executed (m : Monitor σ κ ρ) (c : κ) (value : σ) (done : Nat) : σ × ρ :=
  ((m.body c).take done).foldl (fun p f => f p) (value, m.locals)

def spec (m : Monitor σ κ ρ) (c : κ) (value : σ) : Option (σ × ρ) :=
  if m.ready c value then some (m.executed c value (m.body c).length) else none

theorem executed_succ {c : κ} {value : σ} {done : Nat} {f : σ × ρ → σ × ρ}
    (hf : (m.body c)[done]? = some f) :
    m.executed c value (done + 1) = f (m.executed c value done) := by
  simp [executed, List.take_add_one, hf]

theorem executed_of_le {c : κ} {done : Nat} (h : (m.body c).length ≤ done) (value : σ) :
    m.executed c value done = m.executed c value (m.body c).length := by
  simp [executed, List.take_of_length_le h]

/-- What a step does to the object that the callers see, from `v` to `w`. -/
def Acts (m : Monitor σ κ ρ) (s : State σ κ ρ ι) (v w : σ) : Event κ ρ ι → Prop
  | .unlock i =>
      ∃ c done locals, s.point i = .inside c done locals ∧ m.spec c v = some (w, locals)
  | _ => w = v

/-- The object as of the last mutex release, and what its owner has done to it since. -/
structure Follows (m : Monitor σ κ ρ) (s : State σ κ ρ ι) (a : Atomic.State σ κ ρ ι) : Prop where
  point : ∀ i, a.point i = (s.point i).atomic
  free : s.owner = none → a.value = s.value
  alone : ∀ i, (s.point i).isHolding = true → s.owner = some i
  held : ∀ i, s.owner = some i → (s.point i).isHolding = true
  testing : ∀ i c, s.point i = .testing c → a.value = s.value
  inside : ∀ i c done locals, s.point i = .inside c done locals →
    m.ready c a.value = true ∧ m.executed c a.value done = (s.value, locals)

namespace Follows

variable {a : Atomic.State σ κ ρ ι} {i : ι}

theorem move (h : Follows m s a) (hpoint : (s.point i).isHolding = false) {p : Point κ ρ}
    (hnew : p.isHolding = false) :
    Follows m (s.move i p) (a.move i p.atomic) where
  point := by
    intro j
    rw [State.move_point]
    dsimp only [Atomic.State.move]
    rw [Function.update_apply]
    split
    · rfl
    · exact h.point j
  free := h.free
  alone := by
    intro j hj
    rw [State.move_point] at hj
    split at hj
    · rw [hnew] at hj
      cases hj
    · exact h.alone j hj
  held := by
    intro j hj
    rw [State.move_point]
    split
    · rename_i heq
      subst heq
      rw [h.held j hj] at hpoint
      cases hpoint
    · exact h.held j hj
  testing := by
    intro j c hj
    rw [State.move_point] at hj
    split at hj
    · rw [hj] at hnew
      cases hnew
    · exact h.testing j c hj
  inside := by
    intro j c done locals hj
    rw [State.move_point] at hj
    split at hj
    · rw [hj] at hnew
      cases hnew
    · exact h.inside j c done locals hj

theorem move_unseen (h : Follows m s a) (hpoint : (s.point i).isHolding = false)
    {p : Point κ ρ} (hnew : p.isHolding = false)
    (hsame : p.atomic = (s.point i).atomic) : Follows m (s.move i p) a := by
  have hmove := h.move hpoint hnew
  rwa [hsame, ← h.point i, Atomic.State.move, Function.update_eq_self] at hmove

omit [DecidableEq ι] in
theorem others (h : Follows m s a) (howner : s.owner = none ∨ s.owner = some i) {j : ι}
    (hj : j ≠ i) : (s.point j).isHolding = false := by
  rw [Bool.eq_false_iff]
  intro hholding
  have hown := h.alone j hholding
  rcases howner with hnone | hsome
  · rw [hnone] at hown
    cases hown
  · rw [hsome] at hown
    exact hj (Option.some.inj hown).symm

theorem hold (h : Follows m s a) (howner : s.owner = none ∨ s.owner = some i)
    {p : Point κ ρ} (hsame : p.atomic = (s.point i).atomic)
    (hnew : p.isHolding = true) {v : σ}
    (htesting : ∀ c, p = .testing c → a.value = v)
    (hinside : ∀ c done locals, p = .inside c done locals →
      m.ready c a.value = true ∧ m.executed c a.value done = (v, locals)) :
    Follows m { s.move i p with value := v, owner := some i } a where
  point := by
    intro j
    dsimp only
    rw [State.move_point]
    split
    · rename_i heq
      rw [heq, hsame]
      exact h.point i
    · exact h.point j
  free := by simp
  alone := by
    intro j hj
    dsimp only at hj ⊢
    rw [State.move_point] at hj
    split at hj
    · rename_i heq
      rw [heq]
    · rename_i hne
      rw [h.others howner hne] at hj
      cases hj
  held := by
    intro j hj
    dsimp only at hj ⊢
    rw [State.move_point, if_pos (Option.some.inj hj).symm]
    exact hnew
  testing := by
    intro j c hj
    dsimp only at hj ⊢
    rw [State.move_point] at hj
    split at hj
    · exact htesting c hj
    · rename_i hne
      have := h.others howner hne
      rw [hj] at this
      cases this
  inside := by
    intro j c done locals hj
    dsimp only at hj ⊢
    rw [State.move_point] at hj
    split at hj
    · exact hinside c done locals hj
    · rename_i hne
      have := h.others howner hne
      rw [hj] at this
      cases this

/-- The owner gives the mutex back; only now the call has acted. -/
theorem release (h : Follows m s a) (howner : s.owner = some i) {p : Point κ ρ}
    (hnew : p.isHolding = false) :
    Follows m { s.move i p with owner := none }
      { a.move i p.atomic with value := s.value } where
  point := by
    intro j
    dsimp only [Atomic.State.move]
    rw [State.move_point, Function.update_apply]
    split
    · rfl
    · exact h.point j
  free := fun _ => rfl
  alone := by
    intro j hj
    dsimp only at hj
    rw [State.move_point] at hj
    split at hj
    · rw [hnew] at hj
      cases hj
    · rename_i hne
      rw [h.others (.inr howner) hne] at hj
      cases hj
  held := by simp
  testing := by
    intro j c hj
    dsimp only at hj ⊢
    rfl
  inside := by
    intro j c done locals hj
    dsimp only at hj
    rw [State.move_point] at hj
    split at hj
    · rw [hj] at hnew
      cases hnew
    · rename_i hne
      have := h.others (.inr howner) hne
      rw [hj] at this
      cases this

variable [DecidableEq κ] [DecidableEq ρ]

theorem steps (h : Follows m s a) {e : Event κ ρ ι} (hsteps : Steps m s e t) :
    ∃ as b, run (Atomic.step m.spec) a as = some b ∧
      as.flatMap Atomic.Event.seen = e.seen ∧ Follows m t b ∧ Acts m s a.value b.value e := by
  cases hsteps with
  | @call i c hpoint =>
      refine ⟨[.call i c], a.move i (.called c), ?_, rfl, h.move (by rw [hpoint]; rfl) rfl, rfl⟩
      have hat : a.point i = .outside := by rw [h.point i, hpoint]; rfl
      simp [run, Atomic.step, hat]
  | lock hpoint hfree =>
      refine ⟨[], a, rfl, rfl, ?_, rfl⟩
      refine h.hold (.inl hfree) (by rw [hpoint]; rfl) rfl ?_ (by simp)
      exact fun _ _ => h.free hfree
  | @pass i c hpoint hready =>
      have howner := h.alone i (by rw [hpoint]; rfl)
      have hvalue := h.testing i c hpoint
      refine ⟨[], a, rfl, rfl, ?_, rfl⟩
      have hhold := h.hold (.inr howner) (p := .inside c 0 m.locals) (by rw [hpoint]; rfl) rfl
        (v := s.value) (by simp) ?_
      · rwa [← howner] at hhold
      · intro c' done locals heq
        cases heq
        rw [hvalue]
        exact ⟨hready, rfl⟩
  | @sleep i c hpoint hready =>
      have howner := h.alone i (by rw [hpoint]; rfl)
      have hvalue := h.testing i c hpoint
      refine ⟨[], a, rfl, rfl, ?_, rfl⟩
      have hrelease := h.release howner (p := .asleep c) rfl
      have hat : (Point.asleep c : Point κ ρ).atomic = a.point i := by
        rw [h.point i, hpoint]
        rfl
      rwa [hat, Atomic.State.move, Function.update_eq_self, ← hvalue] at hrelease
  | wake hpoint =>
      exact ⟨[], a, rfl, rfl,
        h.move_unseen (by rw [hpoint]; rfl) rfl (by rw [hpoint]; rfl), rfl⟩
  | @statement i c done locals f hpoint hf =>
      have howner := h.alone i (by rw [hpoint]; rfl)
      obtain ⟨hready, hexecuted⟩ := h.inside i c done locals hpoint
      refine ⟨[], a, rfl, rfl, ?_, rfl⟩
      have hhold := h.hold (.inr howner)
        (p := .inside c (done + 1) (f (s.value, locals)).2) (by rw [hpoint]; rfl) rfl
        (v := (f (s.value, locals)).1) (by simp) ?_
      · rwa [← howner] at hhold
      · intro c' done' locals' heq
        cases heq
        refine ⟨hready, ?_⟩
        rw [executed_succ hf, hexecuted]
  | @unlock i c done locals hpoint hdone =>
      have howner := h.alone i (by rw [hpoint]; rfl)
      obtain ⟨hready, hexecuted⟩ := h.inside i c done locals hpoint
      rw [executed_of_le hdone] at hexecuted
      have hat : a.point i = .called c := by rw [h.point i, hpoint]; rfl
      have hspec : m.spec c a.value = some (s.value, locals) := by
        rw [spec, if_pos hready, hexecuted]
      refine ⟨[.act i c locals], _, ?_, rfl, h.release howner (by split <;> rfl),
        c, done, locals, hpoint, hspec⟩
      cases m.notifies c <;> simp [run, Atomic.step, hspec, hat, Point.atomic]
  | @rouse i j c result hpoint hasleep =>
      refine ⟨[], a, rfl, rfl, ?_, rfl⟩
      have hne : j ≠ i := by
        rintro rfl
        rw [hpoint] at hasleep
        cases hasleep
      have hfirst := h.move_unseen (p := .returning result) (by rw [hpoint]; rfl) rfl
        (by rw [hpoint]; rfl)
      have hj : (s.move i (.returning result)).point j = .asleep c := by
        rw [State.move_point, if_neg hne, hasleep]
      exact hfirst.move_unseen (by rw [hj]; rfl) rfl (by rw [hj]; rfl)
  | silent hpoint _ =>
      exact ⟨[], a, rfl, rfl,
        h.move_unseen (by rw [hpoint]; rfl) rfl (by rw [hpoint]; rfl), rfl⟩
  | @ret i result hpoint =>
      refine ⟨[.ret i result], a.move i .outside, ?_, rfl, h.move (by rw [hpoint]; rfl) rfl, rfl⟩
      have hat : a.point i = .returning result := by rw [h.point i, hpoint]; rfl
      simp [run, Atomic.step, hat]

end Follows

omit [DecidableEq ι] in
theorem follows_init (m : Monitor σ κ ρ) (value : σ) :
    Follows m (State.init value : State σ κ ρ ι) (.init value) where
  point := fun _ => rfl
  free := fun _ => rfl
  alone := by simp [State.init, Point.isHolding]
  held := by simp [State.init]
  testing := by simp [State.init]
  inside := by simp [State.init]

/-! ## No sleeper is forgotten -/

structure Supply (m : Monitor σ κ ρ) where
  units : σ → Nat
  takes : κ → Bool
  blocked : ∀ c v, m.ready c v = false → takes c = true ∧ units v = 0
  acts : ∀ c v w result, m.spec c v = some (w, result) →
    units w + (takes c).toNat ≤ units v + (m.notifies c).toNat

namespace Supply

variable [Fintype ι] (S : Supply m)

/-- Whether a thread will take a unit without further help, or wake one that does. -/
def coming : Point κ ρ → Nat
  | .locking c | .testing c | .inside c _ _ => (S.takes c).toNat
  | .notifying _ => 1
  | _ => 0

def sleeping (p : Point κ ρ) : Nat := p.isAsleep.toNat

def total (f : Point κ ρ → Nat) (s : State σ κ ρ ι) : Nat := ∑ i, f (s.point i)

omit [DecidableEq ι] in
theorem le_total (f : Point κ ρ → Nat) (s : State σ κ ρ ι) (i : ι) :
    f (s.point i) ≤ total f s := by
  classical
  have hrest := Finset.add_sum_erase Finset.univ (fun j => f (s.point j)) (Finset.mem_univ i)
  unfold total
  omega

theorem total_move (f : Point κ ρ → Nat) (s : State σ κ ρ ι) (i : ι) (point : Point κ ρ) :
    total f (s.move i point) + f (s.point i) = total f s + f point := by
  have hchange := sum_change (f := fun j => f ((s.move i point).point j))
    (g := fun j => f (s.point j)) (i := i) fun j hj => by rw [State.move_point, if_neg hj]
  rwa [State.move_point, if_pos rfl] at hchange

/-- There is not more in the object than is being fetched, or nobody sleeps. -/
structure Watched (s : State σ κ ρ ι) (v : σ) : Prop where
  takes : ∀ i c, s.point i = .asleep c → S.takes c = true
  enough : total sleeping s = 0 ∨ S.units v ≤ total S.coming s

variable {S} {i : ι} {v w : σ}

theorem Watched.move (h : S.Watched s v) {p : Point κ ρ} (hawake : p.isAsleep = false)
    (hunits : S.units w + S.coming (s.point i) ≤ S.units v + S.coming p) :
    S.Watched (s.move i p) w where
  takes := by
    intro j c hj
    rw [State.move_point] at hj
    split at hj
    · rw [hj] at hawake
      cases hawake
    · exact h.takes j c hj
  enough := by
    have hasleep := total_move sleeping s i p
    have hcoming := total_move S.coming s i p
    simp only [sleeping, hawake, Bool.toNat_false] at hasleep
    rcases h.enough with hnone | henough
    · left
      omega
    · right
      omega

theorem Watched.sleep (h : S.Watched s v) {c : κ} (hc : S.takes c = true)
    (hv : S.units v = 0) : S.Watched (s.move i (.asleep c)) v where
  takes := by
    intro j c' hj
    rw [State.move_point] at hj
    split at hj
    · cases hj
      exact hc
    · exact h.takes j c' hj
  enough := .inr (by omega)

theorem Watched.rouse (h : S.Watched s v) {j : ι} {c : κ} {result : ρ}
    (hpoint : s.point i = .notifying result) (hasleep : s.point j = .asleep c) :
    S.Watched ((s.move i (.returning result)).move j (.locking c)) v where
  takes := by
    intro k c' hk
    simp only [State.move_point] at hk
    split at hk
    · cases hk
    · split at hk
      · cases hk
      · exact h.takes k c' hk
  enough := by
    have hne : j ≠ i := by
      rintro rfl
      rw [hpoint] at hasleep
      cases hasleep
    have hj : (s.move i (.returning result)).point j = .asleep c := by
      rw [State.move_point, if_neg hne, hasleep]
    have hcoming := total_move S.coming s i (.returning result)
    have hcoming' := total_move S.coming (s.move i (.returning result)) j (.locking c)
    have hfew := le_total sleeping s j
    rw [hpoint] at hcoming
    rw [hj] at hcoming'
    simp only [coming, h.takes j c hasleep, Bool.toNat_true] at hcoming hcoming'
    simp only [sleeping, hasleep, Point.isAsleep, Bool.toNat_true] at hfew
    rcases h.enough with hnone | henough
    · omega
    · right
      omega

theorem Watched.silent (h : S.Watched s v) {result : ρ}
    (hawake : ∀ j, (s.point j).isAsleep = false) : S.Watched (s.move i (.returning result)) v where
  takes := by
    intro j c hj
    rw [State.move_point] at hj
    split at hj
    · cases hj
    · exact h.takes j c hj
  enough := by
    left
    refine Finset.sum_eq_zero fun j _ => ?_
    rw [State.move_point]
    split
    · rfl
    · rw [sleeping, hawake j]
      rfl

omit [DecidableEq ι] in
theorem Watched.congr {u : State σ κ ρ ι} (h : S.Watched s v) (hpoint : u.point = s.point) :
    S.Watched u v where
  takes := hpoint ▸ h.takes
  enough := by
    unfold total
    rw [hpoint]
    exact h.enough

theorem Watched.steps {a : Atomic.State σ κ ρ ι} (h : S.Watched s v) (hfollows : Follows m s a)
    (hv : a.value = v) {e : Event κ ρ ι} (hsteps : Steps m s e t) (hacts : Acts m s v w e) :
    S.Watched t w := by
  cases hsteps with
  | call hpoint =>
      obtain rfl : w = v := hacts
      exact h.move rfl (by rw [hpoint]; simp [coming])
  | lock hpoint _ =>
      obtain rfl : w = v := hacts
      exact (h.move (p := .testing _) rfl (by rw [hpoint]; exact le_rfl)).congr rfl
  | pass hpoint _ =>
      obtain rfl : w = v := hacts
      exact h.move rfl (by rw [hpoint]; exact le_rfl)
  | @sleep i c hpoint hready =>
      obtain rfl : w = v := hacts
      obtain ⟨hc, hunits⟩ := S.blocked c s.value hready
      rw [← hfollows.testing i c hpoint, hv] at hunits
      exact (h.sleep hc hunits).congr rfl
  | wake hpoint =>
      obtain rfl : w = v := hacts
      exact h.move rfl (by rw [hpoint]; simp [coming])
  | statement hpoint _ =>
      obtain rfl : w = v := hacts
      exact (h.move (p := .inside _ _ _) rfl (by rw [hpoint]; exact le_rfl)).congr rfl
  | @unlock i c done locals hpoint _ =>
      obtain ⟨c', done', locals', hpoint', hspec⟩ := hacts
      rw [hpoint] at hpoint'
      cases hpoint'
      have hunits := S.acts c v w locals hspec
      cases hnotifies : m.notifies c <;>
        simp only [hnotifies, Bool.false_eq_true, ↓reduceIte] at hunits ⊢
      · exact (h.move (w := w) (p := .returning locals) rfl
          (by rw [hpoint]; exact hunits)).congr rfl
      · exact (h.move (w := w) (p := .notifying locals) rfl
          (by rw [hpoint]; exact hunits)).congr rfl
  | rouse hpoint hasleep =>
      obtain rfl : w = v := hacts
      exact h.rouse hpoint hasleep
  | silent _ hawake =>
      obtain rfl : w = v := hacts
      exact h.silent hawake
  | ret hpoint =>
      obtain rfl : w = v := hacts
      exact h.move rfl (by rw [hpoint]; simp [coming])

omit [DecidableEq ι] in
theorem watched_init (S : Supply m) (value : σ) :
    S.Watched (State.init value : State σ κ ρ ι) value where
  takes := by simp [State.init]
  enough := .inl (Finset.sum_eq_zero fun _ _ => rfl)

end Supply

/-! ## At rest -/

section Rest

variable [DecidableEq ρ] [Fintype ι]

def Event.isOwn : Event κ ρ ι → Bool
  | .lock _ | .test _ | .statement _ | .unlock _ | .notify .. => true
  | _ => false

def Quiet (m : Monitor σ κ ρ) (s : State σ κ ρ ι) : Prop :=
  ∀ e : Event κ ρ ι, e.isOwn = true → m.step s e = none

def Point.isResting : Point κ ρ → Bool
  | .outside | .asleep _ | .returning _ => true
  | _ => false

variable {a : Atomic.State σ κ ρ ι}

theorem Follows.resting (h : Follows m s a) (hquiet : Quiet m s) :
    s.owner = none ∧ ∀ i, (s.point i).isResting = true := by
  have hfree : s.owner = none := by
    by_contra howned
    obtain ⟨i, hi⟩ := Option.ne_none_iff_exists'.mp howned
    have hholding := h.held i hi
    cases hpoint : s.point i with
    | testing c =>
        have := hquiet (.test i) rfl
        simp only [step, hpoint] at this
        split at this <;> cases this
    | inside c done locals =>
        rcases Nat.lt_or_ge done (m.body c).length with hlt | hge
        · have := hquiet (.statement i) rfl
          simp [step, hpoint, List.getElem?_eq_getElem hlt] at this
        · have := hquiet (.unlock i) rfl
          simp [step, hpoint, hge] at this
    | _ => simp [hpoint, Point.isHolding] at hholding
  refine ⟨hfree, fun i => ?_⟩
  cases hpoint : s.point i with
  | locking c =>
      have := hquiet (.lock i) rfl
      simp [step, hpoint, hfree] at this
  | notifying result =>
      by_cases hawake : ∀ j, (s.point j).isAsleep = false
      · have := hquiet (.notify i none) rfl
        simp [step, hpoint, hawake] at this
      · obtain ⟨j, hj⟩ := not_forall.mp hawake
        cases hasleep : s.point j with
        | asleep c =>
            have := hquiet (.notify i (some j)) rfl
            simp [step, hpoint, hasleep] at this
        | _ => simp [hasleep, Point.isAsleep] at hj
  | testing c =>
      have := h.alone i (by rw [hpoint]; rfl)
      rw [hfree] at this
      cases this
  | inside c done locals =>
      have := h.alone i (by rw [hpoint]; rfl)
      rw [hfree] at this
      cases this
  | _ => rfl

omit [DecidableEq ι] [DecidableEq ρ] in
theorem Supply.Watched.none_left {S : Supply m} {v : σ} (h : S.Watched s v) {i : ι} {c : κ}
    (hresting : ∀ j, (s.point j).isResting = true) (hasleep : s.point i = .asleep c) :
    S.units v = 0 := by
  have hcoming : Supply.total S.coming s = 0 := by
    refine Finset.sum_eq_zero fun j _ => ?_
    have hj := hresting j
    cases hpoint : s.point j <;> simp_all [Supply.coming, Point.isResting]
  have hfew := Supply.le_total Supply.sleeping s i
  simp only [Supply.sleeping, hasleep, Point.isAsleep, Bool.toNat_true] at hfew
  rcases h.enough with hnone | henough <;> omega

end Rest

/-! ## Runs -/

section Runs

variable [DecidableEq κ] [DecidableEq ρ] [Fintype ι] {value : σ} {es : List (Event κ ρ ι)}

theorem Supply.keeps (S : Supply m) {a : Atomic.State σ κ ρ ι} {e : Event κ ρ ι}
    (h : Follows m s a ∧ S.Watched s a.value) (hstep : m.step s e = some t) :
    ∃ as b, run (Atomic.step m.spec) a as = some b ∧ as.flatMap Atomic.Event.seen = e.seen ∧
      (Follows m t b ∧ S.Watched t b.value) := by
  have hsteps := steps_of_step hstep
  obtain ⟨as, b, hrun, hseen, hfollows, hacts⟩ := h.1.steps hsteps
  exact ⟨as, b, hrun, hseen, hfollows, h.2.steps h.1 rfl hsteps hacts⟩

/-- Callers cannot tell an object under a mutex from one whose functions are one step. -/
theorem run_atomic (S : Supply m) (hrun : run m.step (State.init value) es = some s) :
    ∃ as a, run (Atomic.step m.spec) (.init value) as = some a ∧
      as.flatMap Atomic.Event.seen = es.flatMap Event.seen ∧
      Follows m s a ∧ S.Watched s a.value :=
  run_stuttering (R := fun s a => Follows m s a ∧ S.Watched s a.value)
    (fun _ _ _ _ h hstep => S.keeps h hstep) ⟨follows_init m value, S.watched_init value⟩ hrun

end Runs

end Monitor

end Draft.Consensus
