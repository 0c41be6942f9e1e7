/-
The stages of a device, and the tensors that go through them.

`EnqueueTensor` cuts a tensor into partitions, each a task with a list of stages of its own,
and adds them to the queue of the first stage one after the other.  The loop of a stage takes
a task from its queue and hands it to `FinishOrProceed` when it is done with it.  That passes
the task on; for the last stage it counts the partition, and for the last partition it calls
back and ends the round of the tensor.

The threads take turns in any order: a step is a call, or the next part of a call that other
threads may come in between.
-/
import DeepInc.Worker.Partition
import DeepInc.Worker.ScheduledQueue

namespace DeepInc.Worker

/-! ### What a process works with -/

/-- A `BPSContext` after `InitTensor`, as far as it does not change. -/
structure TensorContext where
  tensorName : String
  keyList : List ℕ
  nodup : keyList.Nodup
  /-- `compressor_list.size()` -/
  compressors : ℕ

/-- What does not change while a process runs. -/
structure Setup where
  /-- `_partition_bytes`, a `uint32_t` -/
  partitionBytes : ℕ
  role : Role
  /-- `BYTEPS_SCHEDULING_CREDIT` -/
  schedulingCredit : Option ℤ
  /-- the `_ready_count` of the tables -/
  readyCount : TableName → ℤ
  sort : TaskSort
  /-- `_is_trace == 1` -/
  isTrace : Bool
  startStep : ℤ
  endStep : ℤ
  context : ℕ → TensorContext

/-- What ends a process. -/
inductive Stop
  /-- the step is not one the process can take -/
  | notEnabled
  | fault (f : Fault)
  /-- an iterator past the end is moved on -/
  | pastEnd
  /-- `back()` of an empty queue -/
  | emptyQueue
  deriving DecidableEq, Repr

/-- A call that may end the process. -/
def orStop {α : Type} (r : Except Fault α) : Except Stop α := r.mapError .fault

/-! ### Profiling -/

/-- What an entry was recorded for. -/
inductive Recorded
  /-- a round of a tensor: a call of `EnqueueTensor` -/
  | round (call : ℕ)
  /-- a stage of a task, which has `left` stages to go -/
  | stage (id : Option ℕ × ℕ) (left : ℕ)
  deriving DecidableEq, Repr

/-- `BPSCommTime`, and what it was recorded for. -/
structure CommTime where
  startT : ℤ
  dur : ℤ
  recorded : Recorded
  deriving DecidableEq, Repr

/-- What a `BPSContext` has for profiling. -/
structure Profile where
  profileFlag : Bool
  stepCnt : ℤ
  commTime : List CommTime
  partCommTime : ℕ → QueueType → List CommTime

namespace Profile

/-- Before `InitTensor`. -/
def init : Profile :=
  { profileFlag := false, stepCnt := 0, commTime := [], partCommTime := fun _ _ => [] }

/-- `BytePSGlobal::SetProfileFlag` -/
def setProfileFlag (setup : Setup) (p : Profile) : Except Stop Profile :=
  if setup.isTrace then do
    orStop (check (decide (1 ≤ setup.startStep ∧ setup.startStep < setup.endStep)))
    .ok (if p.stepCnt = setup.startStep - 1 then { p with profileFlag := true }
      else if p.stepCnt = setup.endStep then { p with profileFlag := false }
      else p)
  else .ok { p with profileFlag := false }

/-- Entries of a stage of a key are written. -/
def setPart (p : Profile) (key : ℕ) (op : QueueType) (l : List CommTime) : Profile :=
  { p with partCommTime :=
      Function.update p.partCommTime key (Function.update (p.partCommTime key) op l) }

/-- The entry `EnqueueTensor` adds. -/
def recordRound (p : Profile) (call : ℕ) (now : ℤ) : Profile :=
  if p.profileFlag then
    { p with commTime := p.commTime ++ [{ startT := now, dur := 0, recorded := .round call }] }
  else p

/-- `recorderTs`; the stage is the first of the task's list. -/
def recorderTs (p : Profile) (t : Task) (now : ℤ) : Except Stop Profile :=
  if p.profileFlag then
    match t.queueList with
    | [] => .error (.fault .check)
    | op :: rest => .ok (p.setPart t.key op (p.partCommTime t.key op ++
        [{ startT := now, dur := 0,
           recorded := .stage (t.counterPtr, t.part) (rest.length + 1) }]))
  else .ok p

/-- `back()->dur` is set, once. -/
def setDur (l : List CommTime) (now : ℤ) : Except Stop (List CommTime) :=
  match l.getLast? with
  | none => .error .emptyQueue
  | some e => do
    orStop (check (decide (e.dur = 0)))
    .ok (l.dropLast ++ [{ e with dur := now - e.startT }])

/-- What `FinishOrProceed` writes down of a stage. -/
def finishStage (p : Profile) (key : ℕ) (op : QueueType) (now : ℤ) : Except Stop Profile :=
  if p.profileFlag then (setDur (p.partCommTime key op) now).map (p.setPart key op)
  else .ok p

/-- What `FinishOrProceed` writes down of a round. -/
def finishRound (p : Profile) (now : ℤ) : Except Stop Profile :=
  if p.profileFlag then (setDur p.commTime now).map fun l => { p with commTime := l }
  else .ok p

end Profile

/-! ### The state -/

/-- What is left of a `FinishOrProceed` that has called back. -/
inductive Phase
  | commTime
  | stepCnt
  | profileFlag
  deriving DecidableEq, Repr

/-- A `FinishOrProceed` that has called back. -/
structure Completing where
  call : ℕ
  context : ℕ
  phase : Phase
  deriving DecidableEq, Repr

/-- A call of `EnqueueTensor`: its tensor, the stages and the number of partitions. -/
structure Issue where
  context : ℕ
  stages : List QueueType
  parts : ℕ
  deriving DecidableEq, Repr

/-- What a task is known by: the counter of its call, and its place in the tensor. -/
abbrev TaskId : Type := Option ℕ × ℕ

def Task.id (t : Task) : TaskId := (t.counterPtr, t.part)

/-- What is written down of a run. -/
inductive Event
  /-- a loop has taken a task -/
  | got (op : QueueType) (id : TaskId)
  /-- `FinishOrProceed` has ended a stage -/
  | finished (op : QueueType) (id : TaskId)
  | callback (call : ℕ)
  deriving DecidableEq, Repr

/-- A process. -/
structure Pipeline where
  profile : ℕ → Profile
  queues : QueueType → ScheduledQueue
  tables : TableName → ReadyTable
  /-- `std::atomic_int`s, one for every call of `EnqueueTensor` -/
  counters : ℕ → BitVec 32
  issued : List Issue
  /-- what the calls of `EnqueueTensor` still have to add, in the order of the calls -/
  adding : List (List Task)
  /-- what the loops have taken -/
  taken : List Task
  completing : List Completing
  /-- newest first -/
  log : List Event

namespace Pipeline

/-- Before the first call, with what `InitTensor` made of the profiles. -/
def start (setup : Setup) (p : Profile) : Pipeline :=
  { profile := fun _ => p
    queues := fun op =>
      ScheduledQueue.init op setup.role setup.schedulingCredit setup.partitionBytes
    tables := fun name => { readyCount := setup.readyCount name, readyTable := fun _ => 0 }
    counters := fun _ => 0
    issued := []
    adding := []
    taken := []
    completing := []
    log := [] }

def Started (setup : Setup) (s : Pipeline) : Prop :=
  ∃ p, Profile.init.setProfileFlag setup = .ok p ∧ s = start setup p

def setProfile (s : Pipeline) (n : ℕ) (p : Profile) : Pipeline :=
  { s with profile := Function.update s.profile n p }

def setQueue (s : Pipeline) (op : QueueType) (q : ScheduledQueue) : Pipeline :=
  { s with queues := Function.update s.queues op q }

def record (s : Pipeline) (e : Event) : Pipeline := { s with log := e :: s.log }

end Pipeline

/-! ### Enqueueing a tensor -/

/-- The arguments of `EnqueueTensor`. -/
structure EnqueueArgs where
  context : ℕ
  input : Option Tensor
  output : Option Tensor
  readyEvent : Option ℕ
  device : ℤ
  priority : ℤ
  queueList : List QueueType

/-- `COMPRESS` goes before `PUSH` and `DECOMPRESS` after `PULL`. -/
def insertCompress (queueList : List QueueType) : Except Stop (List QueueType) :=
  let l := queueList.insertIdx (queueList.idxOf .push) .compress
  if l.idxOf .pull = l.length then .error .pastEnd
  else .ok (l.insertIdx (l.idxOf .pull + 1) .decompress)

/-- The stages of a call. -/
def stagesOf (setup : Setup) (args : EnqueueArgs) : Except Stop (List QueueType) :=
  if setup.role.isRootDevice ∧ (setup.context args.context).compressors ≠ 0 then
    insertCompress args.queueList
  else .ok args.queueList

/-- The entry that is cut into partitions. -/
def tensorEntry (setup : Setup) (args : EnqueueArgs) (call : ℕ) (stages : List QueueType) :
    TensorTableEntry :=
  { tensorName := (setup.context args.context).tensorName
    key := 0
    tensor := args.input
    output := args.output
    priority := args.priority
    readyEvent := args.readyEvent
    device := args.device
    queueList := stages
    offset := 0
    len := 0
    counterPtr := some call
    totalPartnum := uint32 (setup.context args.context).keyList.length
    compressor := none }

/-- The partitions, each with its key. -/
def tasksOf (setup : Setup) (args : EnqueueArgs) (call : ℕ) (stages : List QueueType) :
    Except Fault (List Task) := do
  let context := setup.context args.context
  let partitions ←
    partitionTensor setup.partitionBytes context.compressors (tensorEntry setup args call stages)
  check (decide (context.keyList.length = partitions.length))
  .ok (partitions.mapIdx fun i e =>
    { e with key := context.keyList.getD i 0, context := args.context, part := i })

/-- What `EnqueueTensor` checks of its tensors. -/
def checkTensors (args : EnqueueArgs) : Except Fault Unit :=
  match args.input, args.output with
  | some input, some output => check (decide (input.size = output.size))
  -- `input->data()`
  | none, _ => if args.device = -1 then .error .nullPointer else .ok ()
  | _, none => .ok ()

/-- `EnqueueTensor`, up to the loop that adds the partitions. -/
def enqueueTensor (setup : Setup) (s : Pipeline) (args : EnqueueArgs) (now : ℤ) :
    Except Stop Pipeline := do
  let call := s.issued.length
  orStop (checkTensors args)
  let stages ← stagesOf setup args
  let tasks ← orStop (tasksOf setup args call stages)
  let issue : Issue := { context := args.context, stages := stages, parts := tasks.length }
  let s := { s with issued := s.issued ++ [issue] }
  match stages with
  | [] => .ok { s with adding := s.adding ++ [[]], log := .callback call :: s.log }
  | _ :: _ =>
    .ok { s.setProfile args.context ((s.profile args.context).recordRound call now) with
      adding := s.adding ++ [tasks] }

/-- The loop of `EnqueueTensor` adds its next partition. -/
def addNext (setup : Setup) (s : Pipeline) (call : ℕ) : Except Stop Pipeline :=
  match s.adding.getD call [], (s.issued.map (·.stages)).getD call [] with
  | t :: rest, op :: _ => do
    let q ← orStop ((s.queues op).addTask setup.sort t)
    .ok { s.setQueue op q with adding := s.adding.set call rest }
  | _, _ => .error .notEnabled

/-! ### The loops -/

/-- The table a stage waits on. -/
def tableOf (setup : Setup) (s : Pipeline) (op : QueueType) : Option ReadyTable :=
  (readyTableOf setup.role op).map s.tables

/-- The table is written back. -/
def setTable (setup : Setup) (s : Pipeline) (op : QueueType) (rt : Option ReadyTable) : Pipeline :=
  match readyTableOf setup.role op, rt with
  | some name, some rt => { s with tables := Function.update s.tables name rt }
  | _, _ => s

/-- A task is taken from the queue of a stage, which is left with `q`. -/
def take (s : Pipeline) (op : QueueType) (q : ScheduledQueue) (t : Task) (now : ℤ) :
    Except Stop Pipeline := do
  let p ← (s.profile t.context).recorderTs t now
  .ok (({ s with taken := t :: s.taken }.setQueue op q).setProfile t.context p |>.record (.got op t.id))

/-- `getTask()` by the loop of a stage. -/
def runGetTask (setup : Setup) (s : Pipeline) (op : QueueType) (ready : ℕ → Bool) (now : ℤ) :
    Except Stop Pipeline :=
  match (s.queues op).getTask ready (tableOf setup s op) with
  | none => .ok s
  | some (t, q, rt) => take (setTable setup s op rt) op q t now

/-- `getTask(key)` by a loop. -/
def runGetTaskOf (s : Pipeline) (op : QueueType) (key : ℕ) (ready : ℕ → Bool) (now : ℤ) :
    Except Stop Pipeline := do
  let found ← orStop ((s.queues op).getTaskOf ready key)
  match found with
  | none => .ok s
  | some (t, q) => take s op q t now

/-- `FinishOrProceed` for the last stage of a partition: it is counted. -/
def finishPart (s : Pipeline) (t : Task) : Except Stop Pipeline :=
  match t.counterPtr with
  | none => .error (.fault .check)
  | some call => do
    let v := s.counters call
    let s := { s with counters := Function.update s.counters call (v + 1) }
    if v = BitVec.ofNat 32 t.totalPartnum - 1 then do
      orStop (check (decide (t.tensorName ≠ "")))
      .ok { s.record (.callback call) with
        completing := s.completing ++ [{ call := call, context := t.context, phase := .commTime }] }
    else .ok s

/-- `FinishOrProceed`, up to the callback. -/
def finishOrProceed (setup : Setup) (s : Pipeline) (t : Task) (now : ℤ) : Except Stop Pipeline :=
  if t ∈ s.taken then
    match t.queueList with
    | [] => .error (.fault .check)
    | op :: queueList => do
      let s := { s with taken := s.taken.erase t }
      let s := s.setQueue op ((s.queues op).reportFinish t.len)
      let p ← (s.profile t.context).finishStage t.key op now
      let s := (s.setProfile t.context p).record (.finished op t.id)
      match queueList with
      | next :: _ => do
        orStop (check (decide (t.tensorName ≠ "")))
        let q ← orStop ((s.queues next).addTask setup.sort { t with queueList := queueList })
        .ok (s.setQueue next q)
      | [] => finishPart s t
  else .error .notEnabled

/-- `FinishOrProceed` after the callback, one part at a time. -/
def complete (setup : Setup) (s : Pipeline) (i : ℕ) (now : ℤ) : Except Stop Pipeline :=
  match s.completing[i]? with
  | none => .error .notEnabled
  | some c =>
    let p := s.profile c.context
    match c.phase with
    | .commTime => do
      let p ← p.finishRound now
      .ok { s.setProfile c.context p with
        completing := s.completing.set i { c with phase := .stepCnt } }
    | .stepCnt =>
      .ok { s.setProfile c.context { p with stepCnt := p.stepCnt + 1 } with
        completing := s.completing.set i { c with phase := .profileFlag } }
    | .profileFlag => do
      let p ← p.setProfileFlag setup
      .ok { s.setProfile c.context p with completing := s.completing.eraseIdx i }

/-! ### Steps -/

/-- What the threads of a process do. -/
inductive Act
  | enqueueTensor (args : EnqueueArgs) (now : ℤ)
  | addNext (call : ℕ)
  | getTask (op : QueueType) (ready : ℕ → Bool) (now : ℤ)
  | getTaskOf (op : QueueType) (key : ℕ) (ready : ℕ → Bool) (now : ℤ)
  | finishOrProceed (t : Task) (now : ℤ)
  | complete (i : ℕ) (now : ℤ)
  /-- a signal for a table -/
  | addReadyCount (name : TableName) (key : ℕ)
  /-- `BytePSScheduledQueue::reset` -/
  | reset (op : QueueType) (key : ℕ) (cnt : ℤ)

/-- One step of a process. -/
def Pipeline.step (setup : Setup) (s : Pipeline) : Act → Except Stop Pipeline
  | .enqueueTensor args now => Worker.enqueueTensor setup s args now
  | .addNext call => Worker.addNext setup s call
  | .getTask op ready now => runGetTask setup s op ready now
  | .getTaskOf op key ready now => runGetTaskOf s op key ready now
  | .finishOrProceed t now => Worker.finishOrProceed setup s t now
  | .complete i now => Worker.complete setup s i now
  | .addReadyCount name key =>
    (orStop ((s.tables name).addReadyCount key)).map fun rt =>
      { s with tables := Function.update s.tables name rt }
  | .reset op key cnt =>
    .ok (setTable setup s op ((tableOf setup s op).map (·.setReadyCount key cnt)))

end DeepInc.Worker
