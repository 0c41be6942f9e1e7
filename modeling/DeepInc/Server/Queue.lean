/-
The engine queues.

`PriorityQueue` is first in, first out unless it was built with scheduling on; then
`queue` is kept with `std::push_heap` and `std::pop_heap` under `comparePriority`.
That comparison reads `pushCnt`, which `push` increments and `clearCounter` zeroes
while messages of the key are in the queue.
-/
import DeepInc.Lib.Heap
import DeepInc.Server.Message
import Mathlib.Logic.Function.Basic

namespace DeepInc.Server

/-- `PriorityQueue`. -/
structure PriorityQueue (α : Type) where
  queue : List (EngineMessage α)
  /-- `push_cnt_`, whose `operator[]` reads 0 for a key it does not hold -/
  pushCnt : Key → ℕ
  enableSchedule : Bool

namespace PriorityQueue

variable {α : Type}

/-- The queue the constructor builds. -/
def init (isSchedule : Bool) : PriorityQueue α :=
  { queue := [], pushCnt := fun _ => 0, enableSchedule := isSchedule }

/-- `ComparePriority`: whether `a` comes after `b`. -/
def comparePriority (pushCnt : Key → ℕ) (a b : EngineMessage α) : Bool :=
  if pushCnt a.key = pushCnt b.key then decide (a.id > b.id)
  else decide (pushCnt a.key > pushCnt b.key)

/-- The counters after `++push_cnt_[key]`, a `uint64_t`. -/
def countPush (pushCnt : Key → ℕ) (key : Key) : Key → ℕ :=
  Function.update pushCnt key ((pushCnt key + 1) % 2 ^ 64)

/-- `Push`. -/
def push (q : PriorityQueue α) (value : EngineMessage α) : PriorityQueue α :=
  if q.enableSchedule then
    let pushCnt := countPush q.pushCnt value.key
    { q with
      queue := ListHeap.pushHeap (comparePriority pushCnt) (q.queue ++ [value])
      pushCnt := pushCnt }
  else
    { q with queue := q.queue ++ [value] }

/-- `WaitAndPop`; `none` while the queue is empty, when the call waits. -/
def waitAndPop (q : PriorityQueue α) : Option (EngineMessage α × PriorityQueue α) :=
  if q.enableSchedule then
    let queue := ListHeap.popHeap (comparePriority q.pushCnt) q.queue
    queue.getLast?.map fun value => (value, { q with queue := queue.dropLast })
  else
    match q.queue with
    | [] => none
    | value :: rest => some (value, { q with queue := rest })

/-- `ClearCounter`. -/
def clearCounter (q : PriorityQueue α) (key : Key) : PriorityQueue α :=
  if q.enableSchedule then { q with pushCnt := Function.update q.pushCnt key 0 } else q

/-! ### Calls, in the order the mutex lets them in -/

/-- A call on a queue. -/
inductive Call (α : Type)
  | push (value : EngineMessage α)
  | waitAndPop
  | clearCounter (key : Key)

/-- A queue with everything it was given and everything it gave back. -/
structure History (α : Type) where
  queue : PriorityQueue α
  pushed : List (EngineMessage α)
  returned : List (EngineMessage α)

/-- A queue nothing was asked of yet. -/
def History.init (isSchedule : Bool) : History α :=
  { queue := PriorityQueue.init isSchedule, pushed := [], returned := [] }

/-- What a call that returns leaves behind. -/
def History.call (h : History α) : Call α → Option (History α)
  | .push value =>
    some { h with queue := h.queue.push value, pushed := h.pushed ++ [value] }
  | .waitAndPop => h.queue.waitAndPop.map fun r =>
    { h with queue := r.2, returned := h.returned ++ [r.1] }
  | .clearCounter key => some { h with queue := h.queue.clearCounter key }

/-- The step relation of a queue in use. -/
def History.Step (h : History α) (c : Call α) (h' : History α) : Prop := h.call c = some h'

/-- The messages of one key, in order. -/
def ofKey (key : Key) (l : List (EngineMessage α)) : List (EngineMessage α) :=
  l.filter fun m => m.key = key

/-- Ids grow strictly, as `timestamp_++` makes them. -/
def IncreasingIds (l : List (EngineMessage α)) : Prop := l.Pairwise fun a b => a.id < b.id

/-- Nothing of any key is lost, returned twice or overtaken. -/
def History.InOrder (h : History α) : Prop :=
  ∀ key, ofKey key h.returned <+: ofKey key h.pushed

/--
The call leaves the waiting messages a heap under the counters it writes.  Only a
push and a `clearCounter` write counters, and only when scheduling is on.
-/
def History.KeepsHeap (h : History α) : Call α → Prop
  | .push value => h.queue.enableSchedule = true →
    ListHeap.Ordered (comparePriority (countPush h.queue.pushCnt value.key)) h.queue.queue
  | .waitAndPop => True
  | .clearCounter key => h.queue.enableSchedule = true →
    ListHeap.Ordered (comparePriority (Function.update h.queue.pushCnt key 0)) h.queue.queue

end PriorityQueue

end DeepInc.Server
