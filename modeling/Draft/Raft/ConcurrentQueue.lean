import Draft.Consensus.Monitor

/-!
# The queue between threads

`concurrent_queue` as a monitor: the functions with the mutex, the wait of `pop`
and the notification of `push`.  The functions that read the queue without the
mutex have no caller.
-/

namespace Draft.ConcurrentQueue

open Consensus

variable {T ι : Type*}

inductive Call (T : Type*) where
  | push (t : T)
  | pop
  | tryPop
  | empty
  deriving DecidableEq, Repr

inductive Result (T : Type*) where
  | unset
  | value (t : T)
  /-- `try_pop` returns false. -/
  | refused
  | flag (empty : Bool)
  /-- `front` or `pop` of an empty `std::queue`. -/
  | undefined
  deriving DecidableEq, Repr

def front : List T × Result T → List T × Result T
  | ([], _) => ([], .undefined)
  | (t :: que, _) => (t :: que, .value t)

def popFront : List T × Result T → List T × Result T
  | ([], _) => ([], .undefined)
  | (_ :: que, result) => (que, result)

/-- A statement behind the early return of `try_pop`. -/
def unlessRefused (f : List T × Result T → List T × Result T) :
    List T × Result T → List T × Result T
  | (que, .refused) => (que, .refused)
  | (que, result) => f (que, result)

def ready : Call T → List T → Bool
  | .pop, que => !que.isEmpty
  | _, _ => true

def body : Call T → List (List T × Result T → List T × Result T)
  | .push t => [fun (que, result) => (que ++ [t], result)]
  | .pop => [front, popFront]
  | .tryPop =>
      [fun (que, result) => if que.isEmpty then (que, .refused) else (que, result),
        unlessRefused front, unlessRefused popFront]
  | .empty => [fun (que, _) => (que, .flag que.isEmpty)]

def notifies : Call T → Bool
  | .push _ => true
  | _ => false

def concurrentQueue (T : Type*) : Monitor (List T) (Call T) (Result T) where
  ready := ready
  locals := .unset
  body := body
  notifies := notifies

/-! ## The queue as its callers see it -/

/-- First in, first out; there is no step for `pop` while the queue is empty. -/
def fifo : Call T → List T → Option (List T × Result T)
  | .push t, que => some (que ++ [t], .unset)
  | .pop, [] => none
  | .pop, t :: que => some (que, .value t)
  | .tryPop, [] => some ([], .refused)
  | .tryPop, t :: que => some (que, .value t)
  | .empty, que => some (que, .flag que.isEmpty)

theorem spec_eq : (concurrentQueue T).spec = fifo := by
  funext c que
  cases c <;> cases que <;> rfl

def put : Atomic.Event (Call T) (Result T) ι → List T
  | .act _ (.push t) _ => [t]
  | _ => []

def taken : Atomic.Event (Call T) (Result T) ι → List T
  | .act _ _ (.value t) => [t]
  | _ => []

private theorem fifo_keeps {c : Call T} {que que' : List T} {result : Result T} (i : ι)
    (h : fifo c que = some (que', result)) :
    que ++ put (.act i c result) = taken (.act i c result) ++ que' := by
  cases c <;> cases que <;> simp [fifo] at h <;> obtain ⟨rfl, rfl⟩ := h <;>
    simp [put, taken]

private theorem executed_defined {c : Call T} {que : List T} (hready : ready c que = true) (done : Nat) :
    ((concurrentQueue T).executed c que done).2 ≠ .undefined := by
  cases c with
  | push t => rcases done with _ | done <;> simp [Monitor.executed, concurrentQueue, body]
  | pop =>
      cases que with
      | nil => simp [ready] at hready
      | cons t que =>
          rcases done with _ | _ | done <;>
            simp [Monitor.executed, concurrentQueue, body, front, popFront]
  | tryPop =>
      cases que <;> rcases done with _ | _ | _ | done <;>
        simp [Monitor.executed, concurrentQueue, body, front, popFront, unlessRefused]
  | empty => rcases done with _ | done <;> simp [Monitor.executed, concurrentQueue, body]

variable [DecidableEq T] [DecidableEq ι]

private theorem run_fifo {a b : Atomic.State (List T) (Call T) (Result T) ι}
    {as : List (Atomic.Event (Call T) (Result T) ι)}
    (hrun : run (Atomic.step fifo) a as = some b) :
    a.value ++ as.flatMap put = as.flatMap taken ++ b.value := by
  induction as generalizing a with
  | nil =>
      obtain rfl : a = b := by simpa [run] using hrun
      simp
  | cons e as ih =>
      obtain ⟨m, hm, hrest⟩ := run_cons.mp hrun
      have hkeeps : a.value ++ put e = taken e ++ m.value := by
        cases e with
        | act i c result =>
            simp only [Atomic.step] at hm
            split at hm
            · rename_i value r hspec
              split at hm
              · rename_i hat
                cases hm
                rw [hat.2] at hspec
                exact fifo_keeps i hspec
              · cases hm
            · cases hm
        | call i c =>
            simp only [Atomic.step] at hm
            split at hm <;> cases hm
            simp [put, taken, Atomic.State.move]
        | ret i result =>
            simp only [Atomic.step] at hm
            split at hm <;> cases hm
            simp [put, taken, Atomic.State.move]
      rw [List.flatMap_cons, List.flatMap_cons, List.append_assoc, ← ih hrest, ← List.append_assoc,
        ← List.append_assoc, hkeeps]

def supply (T : Type*) : Monitor.Supply (concurrentQueue T) where
  units := List.length
  takes := fun c => c matches .pop
  blocked := by
    intro c que hready
    cases c <;> simp_all [concurrentQueue, ready]
  acts := by
    intro c que que' result hspec
    rw [spec_eq] at hspec
    cases c <;> cases que <;> simp [fifo] at hspec <;> obtain ⟨rfl, rfl⟩ := hspec <;>
      simp [concurrentQueue, notifies]

/-! ## Any number of threads -/

variable [Fintype ι] {s : Monitor.State (List T) (Call T) (Result T) ι}
  {es : List (Monitor.Event (Call T) (Result T) ι)}

/--
Whatever the threads do, they see a queue each of whose functions is one step.
What was taken is the beginning of what was put, and no function reads the front
of an empty queue.
-/
theorem seen_as_fifo (hrun : run (concurrentQueue T).step (.init []) es = some s) :
    (∃ as a, run (Atomic.step fifo) (.init []) as = some a ∧
      as.flatMap Atomic.Event.seen = es.flatMap Monitor.Event.seen ∧
      as.flatMap put = as.flatMap taken ++ a.value ∧
      (s.owner = none → s.value = a.value)) ∧
    ∀ i c done, s.point i ≠ .inside c done .undefined := by
  obtain ⟨as, a, hatomic, hseen, hfollows, -⟩ := Monitor.run_atomic (supply T) hrun
  rw [spec_eq] at hatomic
  refine ⟨⟨as, a, hatomic, hseen, run_fifo hatomic, fun hfree => (hfollows.free hfree).symm⟩, ?_⟩
  intro i c done hpoint
  obtain ⟨hready, hexecuted⟩ := hfollows.inside i c done _ hpoint
  exact executed_defined hready done (congrArg Prod.snd hexecuted)

def handedOver (t : T) : List (Monitor.Event (Call T) (Result T) (Fin 2)) :=
  [.call 0 .pop, .lock 0, .test 0, .call 1 (.push t), .lock 1, .test 1, .statement 1, .unlock 1,
    .notify 1 (some 0), .ret 1 .unset, .lock 0, .test 0, .statement 0, .statement 0, .unlock 0,
    .ret 0 (.value t)]

theorem seen_as_fifo_handed_over :
    ∃ as, ∃ a : Atomic.State (List Bool) (Call Bool) (Result Bool) (Fin 2),
      run (Atomic.step fifo) (.init []) as = some a ∧
      as.flatMap Atomic.Event.seen =
        [.call 0 .pop, .call 1 (.push true), .ret 1 .unset, .ret 0 (.value true)] ∧
      as.flatMap put = as.flatMap taken ++ a.value := by
  have hrun := (Option.some_get (show (run (concurrentQueue Bool).step (.init [])
    (handedOver true)).isSome by decide)).symm
  obtain ⟨⟨as, a, hatomic, hseen, hkept, -⟩, -⟩ := seen_as_fifo hrun
  exact ⟨as, a, hatomic, hseen, hkept⟩

/--
At any moment there are at most as many elements as there are threads on the way
to take one or to wake another, unless nobody sleeps.  So when no thread can go
on by itself, the mutex is free, and whoever sleeps waits in `pop` for an
element that is not there.
-/
theorem no_lost_wakeup (hrun : run (concurrentQueue T).step (.init []) es = some s) :
    (s.owner = none → (∃ i c, s.point i = .asleep c) →
      s.value.length ≤ Monitor.Supply.total (supply T).coming s) ∧
    (Monitor.Quiet (concurrentQueue T) s →
      s.owner = none ∧ ∀ i, (s.point i).isResting = true ∧
        ∀ c, s.point i = .asleep c → c = .pop ∧ s.value = []) := by
  obtain ⟨as, a, -, -, hfollows, hwatched⟩ := Monitor.run_atomic (supply T) hrun
  constructor
  · rintro hfree ⟨i, c, hasleep⟩
    rw [← hfollows.free hfree]
    refine hwatched.enough.resolve_left fun hnone => ?_
    have hfew := Monitor.Supply.le_total Monitor.Supply.sleeping s i
    simp [hnone, hasleep, Monitor.Supply.sleeping, Monitor.Point.isAsleep] at hfew
  · intro hquiet
    obtain ⟨hfree, hresting⟩ := hfollows.resting hquiet
    refine ⟨hfree, fun i => ⟨hresting i, fun c hasleep => ⟨?_, ?_⟩⟩⟩
    · have htakes := hwatched.takes i c hasleep
      cases c <;> simp_all [supply]
    · have hunits := hwatched.none_left hresting hasleep
      rw [hfollows.free hfree] at hunits
      exact List.eq_nil_of_length_eq_zero hunits

theorem no_lost_wakeup_notifying :
    ∃ s, run (concurrentQueue Bool).step (.init []) ((handedOver true).take 8) = some s ∧
      s.point 0 = .asleep .pop ∧
      s.value.length ≤ Monitor.Supply.total (supply Bool).coming s := by
  have hrun := (Option.some_get (show (run (concurrentQueue Bool).step (.init [])
    ((handedOver true).take 8)).isSome by decide)).symm
  exact ⟨_, hrun, by decide, (no_lost_wakeup hrun).1 (by decide) ⟨0, .pop, by decide⟩⟩

end Draft.ConcurrentQueue
