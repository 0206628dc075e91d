import Draft.Raft.ApplyLoop
import Draft.Raft.ConcurrentQueue

/-!
# The apply loop over the queue

`apply_log_committed` pops from `log_committed_queue`, which other threads push
to after they have raised the commit index.  Here the queue is the monitor, and
the loop, the threads that raise and the one that stops the server are its
client.  When no thread has anything left to do, every committed entry has been
handed over.
-/

namespace Draft

open Consensus ConcurrentQueue

abbrev QueueCall := ConcurrentQueue.Call Bool

abbrev QueueResult := ConcurrentQueue.Result Bool

/-- The server around the queue; the queue in `loop` is not used. -/
structure CommitSide (ι : Type) where
  loop : Applying
  /-- The threads that have raised the commit index and push next. -/
  owes : ι → Bool

inductive CommitAct (ι : Type) where
  | raise (i : ι) (index : Nat)
  | loop
  | append (batch : List LogEntry)
  | truncate (index : Nat)
  deriving DecidableEq, Repr

namespace CommitSide

variable {ι : Type} [DecidableEq ι]

def hears (thread : ι) (x : CommitSide ι) : Seen QueueCall QueueResult ι → Option (CommitSide ι)
  | .call i c =>
      if i = thread then
        if c = .pop ∧ x.loop.point = .waiting then some x else none
      else
        match c with
        | .push false =>
            if x.owes i then some { x with owes := Function.update x.owes i false } else none
        | .push true => some x
        | _ => none
  | .ret i result =>
      match result with
      | .value ended =>
          if i = thread then
            some { x with loop := { x.loop with point := if ended then .ended else .testing } }
          else some x
      | _ => some x

def acts (thread : ι) (x : CommitSide ι) : CommitAct ι → Option (CommitSide ι)
  | .raise i index =>
      if i ≠ thread ∧ x.owes i = false ∧
          x.loop.commitIndex ≤ index ∧ index ≤ x.loop.log.lastEntryIndex then
        some { loop := { x.loop with commitIndex := index }, owes := Function.update x.owes i true }
      else none
  | .loop =>
      if x.loop.point = .waiting ∨ x.loop.faulted then none
      else x.loop.loop.map fun loop => { x with loop := loop }
  | .append batch => (x.loop.step (.append batch)).map fun loop => { x with loop := loop }
  | .truncate index => (x.loop.step (.truncate index)).map fun loop => { x with loop := loop }

def client (thread : ι) :
    Client QueueCall QueueResult ι (CommitSide ι) (CommitAct ι) where
  hears := hears thread
  acts := acts thread

def start (loop : Applying) : CommitSide ι := { loop := loop, owes := fun _ => false }

end CommitSide

namespace ApplyThread

variable {ι : Type} [DecidableEq ι] [Fintype ι]

abbrev State (ι : Type) := Monitor.State (List Bool) QueueCall QueueResult ι × CommitSide ι

abbrev Event (ι : Type) := Joint (Monitor.Event QueueCall QueueResult ι) (CommitAct ι)

def step (thread : ι) : State ι → Event ι → Option (State ι) :=
  (CommitSide.client thread).step (concurrentQueue Bool).step Monitor.Event.seen

def start (loop : Applying) : State ι := (.init [], .start loop)

/-- What a thread does without being asked: not a commit, not a stop, no idle wake-up. -/
def isWork : Event ι → Bool
  | .object (.call _ c) => c ≠ .push true
  | .object (.wake _) => false
  | .object _ => true
  | .client .loop => true
  | .client _ => false

def AtRest (thread : ι) (s : State ι) : Prop := ∀ e, isWork e = true → step thread s e = none

/-! ## The loop that the queue is part of -/

variable (thread : ι) (a : Atomic.State (List Bool) QueueCall QueueResult ι)
  (x : CommitSide ι)

def debt (i : ι) : Nat :=
  (x.owes i).toNat + if a.point i = .called (.push false) then 1 else 0

def seenPoint : ApplyPoint :=
  match a.point thread with
  | .returning (.value ended) => if ended then .ended else .testing
  | _ => x.loop.point

def whole : Applying :=
  { x.loop with
    queue := a.value
    pushes := ∑ i, debt a x i
    point := seenPoint thread a x }

structure Fits (base : Nat) : Prop where
  popping : a.point thread = .outside ∨ x.loop.point = .waiting ∧
    (a.point thread = .called .pop ∨ ∃ ended, a.point thread = .returning (.value ended))
  idle : x.owes thread = false
  others : ∀ i, i ≠ thread → a.point i = .outside ∨ (∃ ended, a.point i = .called (.push ended)) ∨
    a.point i = .returning .unset
  inStep : Applying.InStep base (whole thread a x)

variable {thread a x} {y : CommitSide ι} {b : Atomic.State (List Bool) QueueCall QueueResult ι}
  {base : Nat} {i : ι}

omit [DecidableEq ι] in
private theorem whole_congr (hloop : y.loop = x.loop) (hvalue : b.value = a.value)
    (hdebt : ∀ j, debt b y j = debt a x j) (hpoint : seenPoint thread b y = seenPoint thread a x) :
    whole thread b y = whole thread a x := by
  unfold whole
  rw [hloop, hvalue, hpoint, Finset.sum_congr rfl fun j _ => hdebt j]

omit [Fintype ι] in
private theorem seenPoint_congr (hi : i ≠ thread) {point : Atomic.Point QueueCall QueueResult}
    (hloop : y.loop.point = x.loop.point) :
    seenPoint thread (a.move i point) y = seenPoint thread a x := by
  unfold seenPoint
  rw [Atomic.State.move_point, if_neg (Ne.symm hi), hloop]

namespace Fits

theorem turn (h : Fits thread a x base) (hi : i ≠ thread)
    {point : Atomic.Point QueueCall QueueResult}
    (hpoint : point = .outside ∨ (∃ ended, point = .called (.push ended)) ∨
      point = .returning .unset) (hb : b.point = (a.move i point).point)
    (hloop : y.loop.point = x.loop.point) (hidle : y.owes thread = x.owes thread)
    (hin : Applying.InStep base (whole thread b y)) : Fits thread b y base where
  popping := by
    rw [hb, Atomic.State.move_point, if_neg (Ne.symm hi), hloop]
    exact h.popping
  idle := hidle.trans h.idle
  others := by
    intro j hj
    rw [hb, Atomic.State.move_point]
    split
    · exact hpoint
    · exact h.others j hj
  inStep := hin

omit [DecidableEq ι] in
theorem sound (h : Fits thread a x base) : x.loop.faulted = false := h.inStep.sound

private theorem call_pop (h : Fits thread a x base) (hat : a.point thread = .outside)
    (hwaiting : x.loop.point = .waiting) : Fits thread (a.move thread (.called .pop)) x base := by
  have hsame : whole thread (a.move thread (.called .pop)) x = whole thread a x := by
    refine whole_congr rfl rfl (fun j => ?_) ?_
    · simp only [debt, Atomic.State.move_point]
      split
      · rename_i hj
        simp [hj, hat]
      · rfl
    · simp [seenPoint, Atomic.State.move_point, hat]
  exact {
    popping := .inr ⟨hwaiting, .inl (by simp [Atomic.State.move_point])⟩
    idle := h.idle
    others := by
      intro j hj
      rw [Atomic.State.move_point, if_neg hj]
      exact h.others j hj
    inStep := hsame ▸ h.inStep }

private theorem call_push (h : Fits thread a x base) (hi : i ≠ thread) (hat : a.point i = .outside)
    (howes : x.owes i = true) :
    Fits thread (a.move i (.called (.push false)))
      { x with owes := Function.update x.owes i false } base := by
  have hsame : whole thread (a.move i (.called (.push false)))
      { x with owes := Function.update x.owes i false } = whole thread a x := by
    refine whole_congr rfl rfl (fun j => ?_) (seenPoint_congr hi rfl)
    simp only [debt, Atomic.State.move_point, Function.update_apply]
    split
    · rename_i hj
      simp [hj, hat, howes]
    · rfl
  exact h.turn hi (.inr (.inl ⟨false, rfl⟩)) rfl rfl (Function.update_of_ne (Ne.symm hi) _ _)
    (hsame ▸ h.inStep)

private theorem call_stop (h : Fits thread a x base) (hi : i ≠ thread) (hat : a.point i = .outside) :
    Fits thread (a.move i (.called (.push true))) x base := by
  have hsame : whole thread (a.move i (.called (.push true))) x = whole thread a x := by
    refine whole_congr rfl rfl (fun j => ?_) (seenPoint_congr hi rfl)
    simp only [debt, Atomic.State.move_point]
    split
    · rename_i hj
      simp [hj, hat]
    · rfl
  exact h.turn hi (.inr (.inl ⟨true, rfl⟩)) rfl rfl rfl (hsame ▸ h.inStep)

theorem calls (h : Fits thread a x base) {c : QueueCall} (hat : a.point i = .outside)
    (hears : x.hears thread (.call i c) = some y) : Fits thread (a.move i (.called c)) y base := by
  simp only [CommitSide.hears] at hears
  split at hears
  · rename_i hi
    subst hi
    split at hears
    · rename_i hc
      obtain ⟨rfl, hwaiting⟩ := hc
      cases hears
      exact h.call_pop hat hwaiting
    · cases hears
  · rename_i hi
    split at hears
    · split at hears
      · rename_i howes
        cases hears
        exact h.call_push hi hat howes
      · cases hears
    · cases hears
      exact h.call_stop hi hat
    · cases hears

private theorem act_pop (h : Fits thread a x base) (hat : a.point thread = .called .pop) {ended : Bool}
    {que : List Bool} (hvalue : a.value = ended :: que) :
    Fits thread { a.move thread (.returning (.value ended)) with value := que } x base := by
  have hwaiting : x.loop.point = .waiting := by
    rcases h.popping with hout | ⟨hwaiting, -⟩
    · rw [hat] at hout
      cases hout
    · exact hwaiting
  have hstep : (whole thread a x).step .loop = some
      (whole thread { a.move thread (.returning (.value ended)) with value := que } x) := by
    have hpushes : ∑ j, debt { a.move thread (.returning (.value ended)) with value := que } x j =
        ∑ j, debt a x j := by
      refine Finset.sum_congr rfl fun j _ => ?_
      simp only [debt, Atomic.State.move_point]
      split
      · rename_i hj
        simp [hj, hat]
      · rfl
    simp [Applying.step, Applying.loop, whole, hpushes, h.sound, seenPoint, hat, hwaiting,
      hvalue, Atomic.State.move_point]
  exact {
    popping := .inr ⟨hwaiting, .inr ⟨ended, by simp [Atomic.State.move_point]⟩⟩
    idle := h.idle
    others := by
      intro j hj
      dsimp only
      rw [Atomic.State.move_point, if_neg hj]
      exact h.others j hj
    inStep := h.inStep.step hstep }

private theorem act_push (h : Fits thread a x base) (hi : i ≠ thread) {ended : Bool}
    (hat : a.point i = .called (.push ended)) :
    Fits thread { a.move i (.returning .unset) with value := a.value ++ [ended] } x base := by
  refine h.turn hi (.inr (.inr rfl)) rfl rfl rfl ?_
  have hseen : seenPoint thread
      { a.move i (.returning .unset) with value := a.value ++ [ended] } x = seenPoint thread a x :=
    seenPoint_congr hi rfl
  have hdebt : ∑ j, debt { a.move i (.returning .unset) with value := a.value ++ [ended] } x j +
      (if ended then 0 else 1) = ∑ j, debt a x j := by
    have hchange := sum_change
      (f := debt { a.move i (.returning .unset) with value := a.value ++ [ended] } x)
      (g := debt a x) (i := i) fun j hj => by
        simp only [debt, Atomic.State.move_point, if_neg hj]
    simp only [debt, Atomic.State.move_point, hat] at hchange ⊢
    cases ended <;> simp at hchange ⊢ <;> omega
  cases ended with
  | true =>
      refine h.inStep.step (e := .stop) ?_
      simp only [Applying.step, whole, hseen]
      simp only [↓reduceIte, Nat.add_zero] at hdebt
      rw [hdebt]
  | false =>
      refine h.inStep.step (e := .push) ?_
      simp only [Bool.false_eq_true, ↓reduceIte] at hdebt
      simp only [Applying.step, whole, hseen, ← hdebt]
      simp

theorem act (h : Fits thread a x base) {c : QueueCall} {que : List Bool} {result : QueueResult}
    (hat : a.point i = .called c) (hfifo : fifo c a.value = some (que, result)) :
    Fits thread { a.move i (.returning result) with value := que } x base := by
  by_cases hi : i = thread
  · subst hi
    obtain rfl : c = .pop := by
      rcases h.popping with hout | ⟨-, hpop | ⟨ended, hret⟩⟩ <;> simp_all
    cases hvalue : a.value with
    | nil => simp [hvalue, fifo] at hfifo
    | cons ended rest =>
        obtain ⟨rfl, rfl⟩ : rest = que ∧ .value ended = result := by
          simpa [hvalue, fifo] using hfifo
        exact h.act_pop hat hvalue
  · obtain ⟨ended, rfl⟩ : ∃ ended, c = .push ended := by
      rcases h.others i hi with hout | ⟨ended, hpush⟩ | hret
      · rw [hat] at hout
        cases hout
      · rw [hat] at hpush
        exact ⟨ended, by cases hpush; rfl⟩
      · rw [hat] at hret
        cases hret
    obtain ⟨rfl, rfl⟩ : a.value ++ [ended] = que ∧ .unset = result := by
      simpa [fifo] using hfifo
    exact h.act_push hi hat

private theorem returns (h : Fits thread a x base) {result : QueueResult}
    (hat : a.point i = .returning result) (hears : x.hears thread (.ret i result) = some y) :
    Fits thread (a.move i .outside) y base := by
  have hdebt : ∀ j, debt (a.move i .outside) x j = debt a x j := by
    intro j
    simp only [debt, Atomic.State.move_point]
    split
    · rename_i hj
      simp [hj, hat]
    · rfl
  by_cases hi : i = thread
  · subst hi
    obtain ⟨hwaiting, ended, rfl⟩ : x.loop.point = .waiting ∧ ∃ ended, result = .value ended := by
      rcases h.popping with hout | ⟨hwaiting, hpop | ⟨ended, hret⟩⟩
      · rw [hat] at hout
        cases hout
      · rw [hat] at hpop
        cases hpop
      · rw [hat] at hret
        cases hret
        exact ⟨hwaiting, ended, rfl⟩
    simp only [CommitSide.hears, ↓reduceIte, Option.some.injEq] at hears
    subst hears
    have hsame : whole i (a.move i .outside)
        { x with loop := { x.loop with point := if ended then .ended else .testing } } =
          whole i a x := by
      have hpoint : seenPoint i (a.move i .outside)
          { x with loop := { x.loop with point := if ended then .ended else .testing } } =
            seenPoint i a x := by
        simp [seenPoint, Atomic.State.move_point, hat]
      unfold whole
      rw [hpoint]
      exact congrArg (fun pushes => { x.loop with
        queue := a.value, pushes := pushes, point := seenPoint i a x })
          (Finset.sum_congr rfl fun j _ => hdebt j)
    exact {
      popping := .inl (by simp [Atomic.State.move_point])
      idle := h.idle
      others := by
        intro j hj
        rw [Atomic.State.move_point, if_neg hj]
        exact h.others j hj
      inStep := hsame ▸ h.inStep }
  · obtain rfl : x = y := by
      cases result <;> simpa [CommitSide.hears, hi] using hears
    have hsame : whole thread (a.move i .outside) x = whole thread a x :=
      whole_congr rfl rfl hdebt (seenPoint_congr hi rfl)
    exact h.turn hi (.inl rfl) rfl rfl rfl (hsame ▸ h.inStep)

theorem raise (h : Fits thread a x base) (hi : i ≠ thread) (howes : x.owes i = false) {index : Nat}
    (hlo : x.loop.commitIndex ≤ index) (hhi : index ≤ x.loop.log.lastEntryIndex) :
    Fits thread a { loop := { x.loop with commitIndex := index },
                    owes := Function.update x.owes i true } base where
  popping := h.popping
  idle := by
    dsimp only
    rw [Function.update_of_ne (Ne.symm hi)]
    exact h.idle
  others := h.others
  inStep := by
    have hchange := sum_change (f := debt a { loop := { x.loop with commitIndex := index },
                                              owes := Function.update x.owes i true })
      (g := debt a x) (i := i) fun j hj => by simp only [debt, Function.update_of_ne hj]
    have hdebt : ∑ j, debt a { loop := { x.loop with commitIndex := index },
                               owes := Function.update x.owes i true } j =
        ∑ j, debt a x j + 1 := by
      simp only [debt, Function.update_self, howes, Bool.toNat_true, Bool.toNat_false] at hchange ⊢
      omega
    have hstep : (whole thread a x).step (.raise index) = some { whole thread a x with
        commitIndex := index, pushes := ∑ j, debt a x j + 1 } := if_pos ⟨hlo, hhi⟩
    rw [← hdebt] at hstep
    exact h.inStep.step hstep

private theorem loop_moves {s t : Applying} (hpoint : s.point ≠ .waiting) (hloop : s.loop = some t)
    (queue : List Bool) (pushes : Nat) :
    { s with queue := queue, pushes := pushes }.loop =
      some { t with queue := queue, pushes := pushes } := by
  unfold Applying.loop at hloop ⊢
  cases hp : s.point with
  | waiting => exact absurd hp hpoint
  | reading =>
      simp only [hp] at hloop ⊢
      split at hloop
      · cases hloop
        rfl
      · split at hloop <;> cases hloop <;> simp_all
  | ended => simp [hp] at hloop
  | _ =>
      simp only [hp] at hloop ⊢
      cases hloop
      rfl

omit [DecidableEq ι] in
theorem loop (h : Fits thread a x base) {l : Applying} (hpoint : x.loop.point ≠ .waiting)
    (hloop : x.loop.loop = some l) : Fits thread a { x with loop := l } base := by
  have hout : a.point thread = .outside := h.popping.resolve_right fun hin => hpoint hin.1
  have hseen : ∀ z : CommitSide ι, seenPoint thread a z = z.loop.point := by
    intro z
    simp [seenPoint, hout]
  exact {
    popping := .inl hout
    idle := h.idle
    others := h.others
    inStep := by
      have hin := h.inStep
      have hmoves := loop_moves hpoint hloop a.value (∑ j, debt a x j)
      rw [whole, hseen] at hin ⊢
      exact hin.loop hmoves }

omit [DecidableEq ι] in
theorem appends (h : Fits thread a x base) {l : Applying} {batch : List LogEntry}
    (hstep : x.loop.step (.append batch) = some l) :
    Fits thread a { x with loop := l } base := by
  simp only [Applying.step] at hstep
  split at hstep
  · rename_i hbatch
    cases hstep
    exact {
      popping := h.popping
      idle := h.idle
      others := h.others
      inStep := h.inStep.append hbatch }
  · cases hstep

omit [DecidableEq ι] in
private theorem truncates (h : Fits thread a x base) {l : Applying} {index : Nat}
    (hstep : x.loop.step (.truncate index) = some l) :
    Fits thread a { x with loop := l } base := by
  simp only [Applying.step] at hstep
  split at hstep
  · rename_i hindex
    obtain ⟨log, hchop, rfl⟩ := Option.map_eq_some_iff.mp hstep
    exact {
      popping := h.popping
      idle := h.idle
      others := h.others
      inStep := h.inStep.truncate hindex hchop }
  · cases hstep

private theorem does (h : Fits thread a x base) {d : CommitAct ι} (hacts : x.acts thread d = some y) :
    Fits thread a y base := by
  cases d with
  | raise i index =>
      simp only [CommitSide.acts] at hacts
      split at hacts
      · rename_i hraise
        cases hacts
        exact h.raise hraise.1 hraise.2.1 hraise.2.2.1 hraise.2.2.2
      · cases hacts
  | loop =>
      simp only [CommitSide.acts] at hacts
      split at hacts
      · cases hacts
      · rename_i hpoint
        obtain ⟨l, hloop, rfl⟩ := Option.map_eq_some_iff.mp hacts
        exact h.loop (fun hwaiting => hpoint (.inl hwaiting)) hloop
  | append batch =>
      obtain ⟨l, hstep, rfl⟩ := Option.map_eq_some_iff.mp hacts
      exact h.appends hstep
  | truncate index =>
      obtain ⟨l, hstep, rfl⟩ := Option.map_eq_some_iff.mp hacts
      exact h.truncates hstep

theorem step (h : Fits thread a x base)
    {e : Joint (Atomic.Event QueueCall QueueResult ι) (CommitAct ι)}
    (hstep : (CommitSide.client thread).step (Atomic.step fifo) Atomic.Event.seen (a, x) e =
      some (b, y)) : Fits thread b y base := by
  cases e with
  | client d =>
      obtain ⟨rfl, hacts⟩ := Client.step_client.mp hstep
      exact h.does hacts
  | object e =>
      obtain ⟨hatomic, hseen⟩ := Client.step_object.mp hstep
      cases e with
      | call i c =>
          simp only [Atomic.step, Option.ite_none_right_eq_some, Option.some.injEq] at hatomic
          obtain ⟨hat, rfl⟩ := hatomic
          exact h.calls hat (by simpa [Atomic.Event.seen, run, CommitSide.client] using hseen)
      | act i c result =>
          obtain rfl : x = y := by simpa [Atomic.Event.seen, run] using hseen
          simp only [Atomic.step] at hatomic
          split at hatomic
          · rename_i value r hfifo
            split at hatomic
            · rename_i hat
              obtain rfl : r = result := hat.2
              cases hatomic
              exact h.act hat.1 hfifo
            · cases hatomic
          · cases hatomic
      | ret i result =>
          simp only [Atomic.step, Option.ite_none_right_eq_some, Option.some.injEq] at hatomic
          obtain ⟨hat, rfl⟩ := hatomic
          exact h.returns hat (by simpa [Atomic.Event.seen, run, CommitSide.client] using hseen)

end Fits

/-! ## Runs -/

variable {s : State ι} {es : List (Event ι)} {loop : Applying}

omit [DecidableEq ι] in
private theorem fits_start (hstart : Applying.Started loop) (thread : ι) :
    Fits thread (.init []) (.start loop) loop.log.lastIndex where
  popping := .inl rfl
  idle := rfl
  others := fun _ _ => .inl rfl
  inStep := by
    have hsame : whole thread (.init []) (.start loop) = loop := by
      cases hstart <;>
        simp [whole, debt, seenPoint, Atomic.State.init, CommitSide.start, Applying.bootstrap,
          Applying.restart]
    rw [hsame]
    exact Applying.inStep_started hstart

private theorem run_fits (hstart : Applying.Started loop) {thread : ι}
    (hrun : run (step thread) (start loop) es = some s) :
    ∃ a, Fits thread a s.2 loop.log.lastIndex ∧ Monitor.Follows (concurrentQueue Bool) s.1 a ∧
      (supply Bool).Watched s.1 a.value := by
  have hsimulated : ∃ as a, run ((CommitSide.client thread).step
      (Atomic.step (concurrentQueue Bool).spec) Atomic.Event.seen) (.init [], .start loop) as =
        some (a, s.2) ∧
      (Monitor.Follows (concurrentQueue Bool) s.1 a ∧ (supply Bool).Watched s.1 a.value) :=
    Client.run_simulates (R := fun o a => Monitor.Follows (concurrentQueue Bool) o a ∧
        (supply Bool).Watched o a.value)
      (fun _ _ _ _ h hstep => (supply Bool).keeps h hstep)
      ⟨Monitor.follows_init _ [], (supply Bool).watched_init []⟩ hrun
  obtain ⟨as, a, hatomic, hfollows, hwatched⟩ := hsimulated
  rw [spec_eq] at hatomic
  have hfits := run_preserves (P := fun t => Fits thread t.1 t.2 loop.log.lastIndex)
    (fun _ _ _ h hstep => h.step hstep) (fits_start hstart thread) hatomic
  exact ⟨a, hfits, hfollows, hwatched⟩

variable {thread : ι}

private theorem loop_of_running {l : Applying} (hwaiting : l.point ≠ .waiting) (hended : l.point ≠ .ended) :
    ∃ t, l.loop = some t := by
  unfold Applying.loop
  cases hpoint : l.point with
  | waiting => exact absurd hpoint hwaiting
  | ended => exact absurd hpoint hended
  | reading =>
      dsimp only
      split
      · exact ⟨_, rfl⟩
      · split <;> exact ⟨_, rfl⟩
  | _ => exact ⟨_, rfl⟩

namespace AtRest

private theorem not_object (h : AtRest thread s) {e : Monitor.Event QueueCall QueueResult ι}
    (hwork : isWork (.object e) = true) {t : Monitor.State (List Bool) QueueCall QueueResult ι}
    (ht : (concurrentQueue Bool).step s.1 e = some t) :
    run (CommitSide.client thread).hears s.2 e.seen = none := by
  by_contra hsome
  obtain ⟨y, hy⟩ := Option.ne_none_iff_exists'.mp hsome
  have hjoint : step thread s (.object e) = some (t, y) := Client.step_object.mpr ⟨ht, hy⟩
  rw [h _ hwork] at hjoint
  cases hjoint

theorem quiet (h : AtRest thread s) : Monitor.Quiet (concurrentQueue Bool) s.1 := by
  intro e he
  by_contra hsome
  obtain ⟨t, ht⟩ := Option.ne_none_iff_exists'.mp hsome
  have hwork : isWork (.object e : Event ι) = true := by
    cases e <;> simp_all [isWork, Monitor.Event.isOwn]
  have hseen : e.seen = [] := by
    cases e <;> first | rfl | cases he
  have hnone := h.not_object hwork ht
  rw [hseen] at hnone
  cases hnone

theorem returned (h : AtRest thread s) (i : ι) (result : QueueResult) :
    s.1.point i ≠ .returning result := by
  intro hpoint
  have hnone := h.not_object (e := .ret i result) rfl
    (by simp only [Monitor.step, hpoint]; rfl)
  cases result <;> simp [Monitor.Event.seen, run, CommitSide.client, CommitSide.hears] at hnone
  split at hnone <;> cases hnone

private theorem not_called (h : AtRest thread s) {i : ι} {c : QueueCall} (hc : c ≠ .push true)
    (hpoint : s.1.point i = .outside) : s.2.hears thread (.call i c) = none := by
  have hnone := h.not_object (e := .call i c) (by simpa [isWork] using hc)
    (by simp only [Monitor.step, hpoint]; rfl)
  simpa [Monitor.Event.seen, run, CommitSide.client] using hnone

variable {a : Atomic.State (List Bool) QueueCall QueueResult ι} {base : Nat}

private theorem no_debt (h : AtRest thread s) (hfits : Fits thread a s.2 base)
    (hfollows : Monitor.Follows (concurrentQueue Bool) s.1 a)
    (hwatched : (supply Bool).Watched s.1 a.value) (hat : a.point thread = .called .pop) (i : ι) :
    debt a s.2 i = 0 := by
  by_cases hi : i = thread
  · rw [hi, debt, hfits.idle, hat]
    rfl
  · have hresting := (hfollows.resting h.quiet).2 i
    have hpoint := hfollows.point i
    cases hp : s.1.point i with
    | outside =>
        have hnone := h.not_called (c := .push false) (by simp) hp
        have howes : s.2.owes i = false := by
          simpa [CommitSide.hears, hi] using hnone
        rw [debt, howes, hpoint, hp]
        rfl
    | asleep c =>
        have hc := hwatched.takes i c hp
        rw [hp] at hpoint
        rcases hfits.others i hi with hout | ⟨ended, hpush⟩ | hret
        · rw [hpoint] at hout
          cases hout
        · rw [hpoint] at hpush
          cases hpush
          cases hc
        · rw [hpoint] at hret
          cases hret
    | returning result => exact absurd hp (h.returned i result)
    | _ => simp [hp, Monitor.Point.isResting] at hresting

private theorem ended_or_idle (h : AtRest thread s) (hfits : Fits thread a s.2 base)
    (hfollows : Monitor.Follows (concurrentQueue Bool) s.1 a)
    (hwatched : (supply Bool).Watched s.1 a.value) :
    s.2.loop.point = .ended ∨ s.1.point thread = .asleep .pop ∧ a.point thread = .called .pop ∧
      s.2.loop.point = .waiting ∧ a.value = [] := by
  have hresting := (hfollows.resting h.quiet).2
  have hat := hfollows.point thread
  have hthread := hresting thread
  cases hp : s.1.point thread with
  | outside =>
      left
      have hnone := h.not_called (c := .pop) (by simp) hp
      have hwaiting : s.2.loop.point ≠ .waiting := by
        simpa [CommitSide.hears] using hnone
      by_contra hended
      obtain ⟨l, hl⟩ := loop_of_running hwaiting hended
      have hstep : step thread s (.client .loop) = some (s.1, { s.2 with loop := l }) := by
        refine Client.step_client.mpr ⟨rfl, ?_⟩
        simp [CommitSide.client, CommitSide.acts, hwaiting, hfits.sound, hl]
      rw [h _ rfl] at hstep
      cases hstep
  | asleep c =>
      right
      have hc := hwatched.takes thread c hp
      rw [hp] at hat
      obtain rfl : c = .pop := by
        cases c <;> first | rfl | cases hc
      have hwaiting : s.2.loop.point = .waiting := by
        rcases hfits.popping with hout | ⟨hwaiting, -⟩
        · rw [hat] at hout
          cases hout
        · exact hwaiting
      exact ⟨rfl, hat, hwaiting, List.eq_nil_of_length_eq_zero (hwatched.none_left hresting hp)⟩
  | returning result => exact absurd hp (h.returned thread result)
  | _ => simp [hp, Monitor.Point.isResting] at hthread

private theorem of_idle (hthread : s.1.point thread = .asleep .pop) (hwaiting : s.2.loop.point = .waiting)
    (hothers : ∀ i, i ≠ thread → s.1.point i = .outside) (howes : ∀ i, s.2.owes i = false) :
    AtRest thread s := by
  have hpoint : ∀ i, s.1.point i = .asleep .pop ∨ i ≠ thread ∧ s.1.point i = .outside := by
    intro i
    by_cases hi : i = thread
    · exact .inl (hi ▸ hthread)
    · exact .inr ⟨hi, hothers i hi⟩
  intro e hwork
  by_contra hsome
  obtain ⟨t, ht⟩ := Option.ne_none_iff_exists'.mp hsome
  cases e with
  | client d =>
      have hacts := (Client.step_client.mp ht).2
      cases d with
      | loop => simp [CommitSide.client, CommitSide.acts, hwaiting] at hacts
      | _ => cases hwork
  | object e =>
      obtain ⟨hmonitor, hhears⟩ := Client.step_object.mp ht
      have hsteps := Monitor.steps_of_step hmonitor
      generalize t.1 = o at hsteps
      cases hsteps with
      | @call i c hat =>
          rcases hpoint i with hasleep | ⟨hi, -⟩
          · rw [hasleep] at hat
            cases hat
          · simp only [Monitor.Event.seen, run, CommitSide.client, CommitSide.hears, if_neg hi,
              howes i] at hhears
            cases c with
            | push ended => cases ended <;> simp_all [isWork]
            | _ => simp at hhears
      | wake => cases hwork
      | @lock i _ hat | @pass i _ hat | @sleep i _ hat | @statement i _ _ _ _ hat
      | @unlock i _ _ _ hat | @rouse i _ _ _ hat | @silent i _ hat | @ret i _ hat =>
          rcases hpoint i with hasleep | ⟨-, hout⟩
          · rw [hasleep] at hat
            cases hat
          · rw [hout] at hat
            cases hat

end AtRest

/--
In every interleaving the data entries up to `last_applied` were handed over,
each once and in order.  When nothing is left to do, the server was stopped, or
all committed entries were handed over and the apply thread sleeps.
-/
theorem applied_at_rest (hstart : Applying.Started loop)
    (hrun : run (step thread) (start loop) es = some s) :
    s.2.loop.faulted = false ∧
    s.2.loop.lastApplied ≤ s.2.loop.commitIndex ∧
    s.2.loop.applied =
      Applying.dataEntries s.2.loop.held loop.lastApplied s.2.loop.lastApplied ∧
    (AtRest thread s → s.2.loop.point = .ended ∨
      s.1.point thread = .asleep .pop ∧
      s.2.loop.applied =
        Applying.dataEntries s.2.loop.held loop.lastApplied s.2.loop.commitIndex) := by
  obtain ⟨a, hfits, hfollows, hwatched⟩ := run_fits hstart hrun
  have hin := hfits.inStep
  have hfirst : loop.lastApplied = loop.log.lastIndex := by
    cases hstart <;> rfl
  have happlied := hin.applied
  have hdata : ∀ last, Applying.handed s.2.loop.held loop.log.lastIndex last =
      Applying.dataEntries s.2.loop.held loop.log.lastIndex last :=
    fun last => (Applying.dataEntries_eq hin.indexed last).symm
  refine ⟨hin.sound, hin.applied_le, ?_, ?_⟩
  · rw [hfirst, ← hdata]
    exact happlied
  · intro hrest
    refine (hrest.ended_or_idle hfits hfollows hwatched).imp_right ?_
    rintro ⟨hasleep, hat, hwaiting, hempty⟩
    refine ⟨hasleep, ?_⟩
    have hpoint : seenPoint thread a s.2 = .waiting := by
      simp [seenPoint, hat, hwaiting]
    have hnone : ∑ i, debt a s.2 i = 0 :=
      Finset.sum_eq_zero fun i _ => hrest.no_debt hfits hfollows hwatched hat i
    have hall := hin.awake hpoint hempty hnone
    rw [hfirst, ← hdata]
    exact happlied.trans hall.symm

/-- The thread of the loop is `false`; it sleeps until the other one commits an entry. -/
def wokenUp : List (Event Bool) :=
  let e : LogEntry :=
    { term := 1, index := 2, data := ascii "set k v", config := false, prevCfg := 0 }
  let sleeps : List (Event Bool) :=
    [.object (.call false .pop), .object (.lock false), .object (.test false)]
  let pushes : List (Event Bool) :=
    [.object (.call true (.push false)), .object (.lock true), .object (.test true),
      .object (.statement true), .object (.unlock true), .object (.notify true (some false)),
      .object (.ret true .unset)]
  let pops : List (Event Bool) :=
    [.object (.lock false), .object (.test false), .object (.statement false),
      .object (.statement false), .object (.unlock false), .object (.ret false (.value false))]
  sleeps ++ [.client (.append [e]), .client (.raise true 2)] ++ pushes ++ pops ++
    List.replicate 6 (.client .loop) ++ sleeps

theorem applied_at_rest_woken :
    ∃ s, run (step false) (start (Applying.bootstrap false (some (ascii "a:1")))) wokenUp = some s ∧
      s.1.point false = .asleep .pop ∧ s.2.loop.commitIndex = 2 ∧
      s.2.loop.applied = Applying.dataEntries s.2.loop.held 0 s.2.loop.commitIndex := by
  have hrun := (Option.some_get (show (run (step false) (start (Applying.bootstrap false
    (some (ascii "a:1")))) wokenUp).isSome by decide)).symm
  have hrest : AtRest false (Option.get _ (show (run (step false) (start (Applying.bootstrap false
      (some (ascii "a:1")))) wokenUp).isSome by decide)) :=
    AtRest.of_idle (by decide) (by decide) (by decide) (by decide)
  obtain ⟨hasleep, happlied⟩ := ((applied_at_rest (.bootstrap false _) hrun).2.2.2
    hrest).resolve_left (by decide)
  exact ⟨_, hrun, hasleep, by decide, happlied⟩

end ApplyThread

end Draft
