/-
The thread pool.

What the mutex guards is one step: a critical section of `enqueue`, one turn of a worker at
`condition.wait`, the assignment in the destructor.  `notify_one` and `notify_all` are called
after the mutex was given back, so they are steps of their own, and other threads may run in
between.  A worker that sleeps can also wake without being notified.

Tasks are numbered in the order `enqueue` took them; the numbers, and the lists of what was
enqueued, taken and finished, are only a record.
-/
import Mathlib.Data.Finset.Basic
import Mathlib.Data.List.Basic
import Mathlib.Logic.Function.Basic

namespace DeepInc.ThreadPool

/-- Where a worker thread is. -/
inductive Thread (τ : Type)
  /-- about to hold the mutex and to look at the predicate of `condition.wait` -/
  | atWait
  | asleep
  /-- `task()`, of the task with this number -/
  | running (number : ℕ) (task : τ)
  | returned
  deriving DecidableEq, Repr

/-- How far `~ThreadPool` has got. -/
inductive Destructor
  | notCalled
  /-- `stop` is set, and `notify_all` is next -/
  | notifying
  | joining
  | returned
  deriving DecidableEq, Repr

/-- `ThreadPool`. -/
structure Pool (τ : Type) where
  tasks : List τ
  stop : Bool
  workers : ℕ → Thread τ
  /-- calls of `enqueue` that have not called `notify_one` yet -/
  toNotify : ℕ
  destructor : Destructor
  enqueued : List τ
  taken : List τ
  finished : List ℕ

/-- What can happen next. -/
inductive Move (τ : Type)
  | enqueue (task : τ)
  /-- wakes the given sleeper, or finds none -/
  | notifyOne (i : Option ℕ)
  | wait (i : ℕ)
  | wakeUp (i : ℕ)
  | finish (i : ℕ)
  | stop
  | notifyAll
  | join
  deriving DecidableEq, Repr

namespace Pool

variable {τ : Type}

/-- The constructor. -/
def init (τ : Type) : Pool τ :=
  { tasks := [], stop := false, workers := fun _ => .atWait, toNotify := 0,
    destructor := .notCalled, enqueued := [], taken := [], finished := [] }

/-- The critical section of `enqueue`. -/
def enqueue (p : Pool τ) (task : τ) : Except String (Pool τ) :=
  if p.stop then .error "enqueue on stopped ThreadPool"
  else .ok { p with
    tasks := p.tasks ++ [task], toNotify := p.toNotify + 1, enqueued := p.enqueued ++ [task] }

/-- Where worker `i` is, changed. -/
def setWorker (p : Pool τ) (i : ℕ) (t : Thread τ) : Pool τ :=
  { p with workers := Function.update p.workers i t }

/-- A worker that holds the mutex at `condition.wait`. -/
def atPredicate (p : Pool τ) (i : ℕ) : Pool τ :=
  match p.tasks with
  | task :: rest =>
    { p.setWorker i (.running p.taken.length task) with
      tasks := rest, taken := p.taken ++ [task] }
  | [] => if p.stop then p.setWorker i .returned else p.setWorker i .asleep

/-- Every sleeper is woken. -/
def wakeAll (p : Pool τ) : Pool τ :=
  { p with workers := fun i => match p.workers i with
      | .asleep => .atWait
      | t => t }

variable (threads : ℕ)

/-- The move, if it can be taken. -/
def move [DecidableEq τ] (p : Pool τ) : Move τ → Option (Pool τ)
  | .enqueue task => (p.enqueue task).toOption
  | .notifyOne (some i) =>
    if 0 < p.toNotify ∧ i < threads ∧ p.workers i = .asleep then
      some { p.setWorker i .atWait with toNotify := p.toNotify - 1 }
    else none
  | .notifyOne none =>
    if 0 < p.toNotify ∧ ∀ i < threads, p.workers i ≠ .asleep then
      some { p with toNotify := p.toNotify - 1 }
    else none
  | .wait i => if i < threads ∧ p.workers i = .atWait then some (p.atPredicate i) else none
  | .wakeUp i =>
    if i < threads ∧ p.workers i = .asleep then some (p.setWorker i .atWait) else none
  | .finish i =>
    match p.workers i with
    | .running number _ =>
      if i < threads then
        some { p.setWorker i .atWait with finished := p.finished ++ [number] }
      else none
    | _ => none
  | .stop =>
    if p.destructor = .notCalled then some { p with stop := true, destructor := .notifying }
    else none
  | .notifyAll =>
    if p.destructor = .notifying then some { p.wakeAll with destructor := .joining } else none
  | .join =>
    if p.destructor = .joining ∧ ∀ i < threads, p.workers i = .returned then
      some { p with destructor := .returned }
    else none

/-- The step relation of the pool and whoever uses it. -/
def Step [DecidableEq τ] (p : Pool τ) (a : Move τ) (p' : Pool τ) : Prop :=
  p.move threads a = some p'

end Pool

end DeepInc.ThreadPool
