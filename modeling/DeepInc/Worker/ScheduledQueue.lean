/-
The queue of a stage, and the tables it waits on.

A queue holds the tasks that are to go through its stage.  A loop takes the first that may go:
its ready event has come, there are credits left for its length, and its key is ready in the
table of the queue.  Taking it clears the count of the key.
-/
import DeepInc.Worker.TensorTable
import Mathlib.Data.List.Perm.Basic
import Mathlib.Logic.Function.Basic

namespace DeepInc.Worker

/-- A `shared_ptr<TensorTableEntry>` that is passed on from stage to stage. -/
structure Task extends TensorTableEntry where
  /-- the number of its `BPSContext` -/
  context : ℕ
  /-- its place among the partitions of the tensor -/
  part : ℕ
  deriving DecidableEq

/-! ### Ready tables -/

/-- `ReadyTable` -/
structure ReadyTable where
  readyCount : ℤ
  readyTable : ℕ → ℤ

namespace ReadyTable

/-- `IsKeyReady` -/
def isKeyReady (rt : ReadyTable) (key : ℕ) : Bool := rt.readyTable key = rt.readyCount

/--
`SetReadyCount`, in a build in which it comes back.  It is an `int` function without a `return`,
so C++ leaves open what happens when it ends.  Only the loop of `COMPRESS` calls it.
-/
def setReadyCount (rt : ReadyTable) (key : ℕ) (cnt : ℤ) : ReadyTable :=
  { rt with readyTable := Function.update rt.readyTable key cnt }

/-- `ClearReadyCount` -/
def clearReadyCount (rt : ReadyTable) (key : ℕ) : ReadyTable := rt.setReadyCount key 0

/-- `AddReadyCount` -/
def addReadyCount (rt : ReadyTable) (key : ℕ) : Except Fault ReadyTable := do
  check (decide (rt.readyTable key < rt.readyCount))
  .ok (rt.setReadyCount key (rt.readyTable key + 1))

end ReadyTable

/-- The tables a device has. -/
inductive TableName
  | reduce
  | pcieReduce
  | push
  | copy
  | broadcast
  deriving DecidableEq, Repr

/-- What a device is root of. -/
structure Role where
  /-- `BytePSGlobal::IsRootDevice` -/
  isRootDevice : Bool
  /-- `NcclManager::IsSignalRoot` -/
  isSignalRoot : Bool
  /-- `IsCrossPcieSwitch() && GetCpuReducer()->isRoot()` -/
  isReducerRoot : Bool
  deriving DecidableEq, Repr

/-- `_rt`, as the constructor of a queue sets it. -/
def readyTableOf (role : Role) : QueueType → Option TableName
  | .reduce => if role.isSignalRoot then some .reduce else none
  | .pcieReduce => if role.isReducerRoot then some .pcieReduce else none
  | .compress | .push => if role.isRootDevice then some .push else none
  | .copyH2D => if role.isRootDevice then none else some .copy
  | .broadcast => if role.isSignalRoot then some .broadcast else none
  | _ => none

/-! ### Scheduled queues -/

/-- How `std::sort` orders the tasks of a scheduled queue: those it may exchange in any way. -/
structure TaskSort where
  sort : List Task → List Task
  perm : ∀ ts, (sort ts).Perm ts
  sorted : ∀ ts, (sort ts).Pairwise fun a b =>
    a.priority > b.priority ∨ a.priority = b.priority ∧ a.key ≤ b.key

/-- `BytePSScheduledQueue` -/
structure ScheduledQueue where
  sq : List Task
  /-- `uint64_t` -/
  credits : ℕ
  isScheduled : Bool

/-- The first element that passes a test, and the others. -/
def takeFirst {α : Type} (p : α → Bool) : List α → Option (α × List α)
  | [] => none
  | a :: as => if p a then some (a, as) else (takeFirst p as).map fun r => (r.1, a :: r.2)

namespace ScheduledQueue

/-- Before any task, with what `BYTEPS_SCHEDULING_CREDIT` asks for on the queue it is for. -/
def init (type : QueueType) (role : Role) (schedulingCredit : Option ℤ) (partitionBytes : ℕ) :
    ScheduledQueue :=
  let creditInPartition := match schedulingCredit with
    | some n => (n % 2 ^ 64).toNat
    | none => 0
  let isScheduled := type = .reduce ∧ role.isSignalRoot ∧ creditInPartition ≠ 0
  { sq := []
    credits := if isScheduled then uint64 (partitionBytes * creditInPartition) else 34359738368
    isScheduled := isScheduled }

/-- `addTask` -/
def addTask (sort : TaskSort) (q : ScheduledQueue) (entry : Task) : Except Fault ScheduledQueue := do
  let sq := q.sq ++ [entry]
  check (decide (entry.tensorName ≠ ""))
  .ok { q with sq := if q.isScheduled then sort.sort sq else sq }

/-- The ready event of a task is not there, or has come. -/
def isReady (ready : ℕ → Bool) (t : Task) : Bool := t.readyEvent.all ready

/-- What `getTask` does not pass over. -/
def eligible (ready : ℕ → Bool) (rt : Option ReadyTable) (q : ScheduledQueue) (t : Task) : Bool :=
  isReady ready t && (!q.isScheduled || decide (t.len ≤ q.credits)) && rt.all (·.isKeyReady t.key)

/-- `getTask()`, besides `recorderTs` and a check that `addTask` has made. -/
def getTask (ready : ℕ → Bool) (rt : Option ReadyTable) (q : ScheduledQueue) :
    Option (Task × ScheduledQueue × Option ReadyTable) :=
  (takeFirst (q.eligible ready rt) q.sq).map fun r =>
    let task := r.1
    ({ task with readyEvent := none },
      { q with
        sq := r.2
        credits := if q.isScheduled then q.credits - task.len else q.credits },
      rt.map (·.clearReadyCount task.key))

/-- The loop of `getTask(key)`, which goes no further than the first task of the key. -/
def findKey (ready : ℕ → Bool) (key : ℕ) : List Task → Except Fault (Option (Task × List Task))
  | [] => .ok none
  | t :: ts => do
    check (isReady ready t)
    if t.key = key then .ok (some (t, ts))
    else do
      let rest ← findKey ready key ts
      .ok (rest.map fun r => (r.1, t :: r.2))

/-- `getTask(key)`, besides `recorderTs` and a check that `addTask` has made. -/
def getTaskOf (ready : ℕ → Bool) (key : ℕ) (q : ScheduledQueue) :
    Except Fault (Option (Task × ScheduledQueue)) := do
  check !q.isScheduled
  let found ← findKey ready key q.sq
  .ok (found.map fun r => ({ r.1 with readyEvent := none }, { q with sq := r.2 }))

/-- `reportFinish`; the size is an `int`. -/
def reportFinish (q : ScheduledQueue) (size : ℕ) : ScheduledQueue :=
  if q.isScheduled then { q with credits := uint64 (q.credits + int32 size) } else q

end ScheduledQueue

end DeepInc.Worker
