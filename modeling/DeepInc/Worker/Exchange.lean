/-
The data of a partition, while the loops of a machine go on.

A loop has taken a task for some time before it hands it back, and does its work at some point
in between; what the other loops and the other devices do comes before or after.  So the work
is a step of its own here.  A collective is one for all devices, and comes when each of them has
taken the task; the push reads the host when it is sent, and the pull writes it when it is
answered.

The devices are those of one switch, and the partition has no compressor: there is no step for
the work of COMPRESS, so a task with that stage stays there.
-/
import DeepInc.Worker.Machine
import DeepInc.Worker.Transfer

namespace DeepInc.Worker

open ByteMemory

/-- A partition of a tensor, and all that comes into it from outside of the machine. -/
structure Exchange (β : Type) where
  /-- `BYTEPS_REDUCE_ROOTS` -/
  roots : Option (List ℤ)
  key : ℕ
  /-- the task of each device -/
  task : ℕ → DeviceTask
  /-- what is on a device when it enqueues the partition for a round -/
  written : ℕ → ℕ → DeviceMemory β
  /-- what the server answers to the pull of a round -/
  answer : ℕ → Memory β

namespace Exchange

variable {β : Type}

/-- The machine, its memory, and how far the work on the partition is. -/
structure State (β : Type) where
  machine : Machine
  device : ℕ → DeviceMemory β
  host : HostMemory β
  /-- how often a device has done the work of a stage -/
  done : ℕ → QueueType → ℕ
  /-- what was pushed, oldest first -/
  pushed : List (Memory β)

/-- The stages that have work to do on the data. -/
def dataStages : List QueueType :=
  [.reduce, .copyD2H, .compress, .push, .pull, .decompress, .copyH2D, .broadcast]

/-- The stage a NCCL call is for. -/
def stageOf : NcclStage → QueueType
  | .reduce => .reduce
  | .broadcast => .broadcast

/-- What is done next. -/
inductive Act (β : Type)
  | machine (a : Machine.Act)
  /-- NCCL goes through the calls of all devices -/
  | nccl (stage : NcclStage)
  | copyDevice2Host (d : ℕ)
  /-- ps-lite sends the push -/
  | push
  /-- ps-lite writes the answer to the pull -/
  | pull
  | copyHost2Device (d : ℕ)
  /-- the memory of a device is written outside of the partition -/
  | writeDevice (d : ℕ) (mem : DeviceMemory β)
  /-- and that of the host -/
  | writeHost (host : HostMemory β)

variable (cfg : Machine.Config) (e : Exchange β) (x : State β)

/-- A device, as the one switch of the machine has it. -/
def device (d : ℕ) : Device :=
  { localRank := d, localSize := cfg.localSize, ncclSize := cfg.localSize, reduceRoots := e.roots }

/-- A loop has taken the task for a stage, and its work is still to be done. -/
def working (d : ℕ) (op : QueueType) : Prop := x.done d op < x.machine.log.count (.got d op e.key)

instance (d : ℕ) (op : QueueType) : Decidable (working e x d op) := by
  unfold working
  infer_instance

/-- The work of a stage is done. -/
def State.work (x : State β) (d : ℕ) (op : QueueType) : State β :=
  { x with done := fun d' op' => x.done d' op' + if op' = op ∧ d' = d then 1 else 0 }

/-- The work of a stage is done on all devices. -/
def State.workAll (x : State β) (op : QueueType) : State β :=
  { x with done := fun d op' => x.done d op' + if op' = op then 1 else 0 }

/-- The bytes of the partition, of one memory within another. -/
def within (d : ℕ) (inside outside : Memory β) : Memory β :=
  memcpy outside (e.task d).offset inside (e.task d).offset (e.task d).len

/-! ### Steps -/

/-- The machine has gone on: a device that has begun a round has what was written to it. -/
def goOn (m : Machine) : State β :=
  let begun (m : Machine) (d : ℕ) := m.log.count (.begun d e.key)
  { x with
    machine := m
    device := fun d b =>
      if begun m d = begun x.machine d then x.device d b
      else e.within d (e.written (begun x.machine d) d b) (x.device d b) }

/-- The loops of the machine go on.  No task is handed back before the work of its stage is done. -/
def runMachine (a : Machine.Act) : Except Stop (State β) := do
  let m ← Machine.step cfg x.machine a
  if ∀ d < cfg.localSize, ∀ op ∈ dataStages, m.log.count (.finished d op e.key) ≤ x.done d op then
    .ok (e.goOn x m)
  else .error .notEnabled

/-- The collectives of a stage. -/
def runCollective [∀ dtype, AddCommMonoid (Element β dtype)] (stage : NcclStage) :
    Except Stop (State β) :=
  if ∀ d < cfg.localSize, working e x d (stageOf stage) then
    match runNccl cfg.localSize (e.device cfg) e.task stage x.device with
    | none => .error (.fault .check)
    | some device => .ok ({ x with device := device }.workAll (stageOf stage))
  else .error .notEnabled

/-- `RunCopyDevice2HostLoopOnce` -/
def runCopyToHost (d : ℕ) : Except Stop (State β) :=
  if d < cfg.localSize ∧ working e x d .copyD2H then
    match runCopyDevice2Host (e.device cfg d) (e.task d) (x.device d) x.host with
    | none => .error (.fault .check)
    | some (_, host) => .ok ({ x with host := host }.work d .copyD2H)
  else .error .notEnabled

/-- `RunPushLoopOnce` -/
def runPushOnce : Except Stop (State β) :=
  if working e x cfg.root .push then
    .ok ({ x with
      pushed := x.pushed ++ [pushVals (e.device cfg cfg.root) (e.task cfg.root) x.host] }.work
        cfg.root .push)
  else .error .notEnabled

/-- `RunPullLoopOnce` -/
def runPullOnce : Except Stop (State β) :=
  if working e x cfg.root .pull then
    .ok ({ x with
      host := runPull (e.device cfg cfg.root) (e.task cfg.root)
        (e.answer (x.done cfg.root .pull)) x.host }.work cfg.root .pull)
  else .error .notEnabled

/-- `CopyHost2Device` -/
def runCopyToDevice (d : ℕ) : Except Stop (State β) :=
  if d < cfg.localSize ∧ working e x d .copyH2D then
    match copyHost2Device (e.device cfg d) (e.task d) x.host (x.device d) with
    | none => .error (.fault .check)
    | some mem => .ok ({ x with device := Function.update x.device d mem }.work d .copyH2D)
  else .error .notEnabled

/-- One step. -/
def step [∀ dtype, AddCommMonoid (Element β dtype)] : Act β → Except Stop (State β)
  | .machine a => runMachine cfg e x a
  | .nccl stage => runCollective cfg e x stage
  | .copyDevice2Host d => runCopyToHost cfg e x d
  | .push => runPushOnce cfg e x
  | .pull => runPullOnce cfg e x
  | .copyHost2Device d => runCopyToDevice cfg e x d
  | .writeDevice d mem =>
    .ok { x with
      device := Function.update x.device d fun b => e.within d (x.device d b) (mem b) }
  | .writeHost host =>
    .ok { x with host := fun i => e.within cfg.root (x.host i) (host i) }

/-- Before the first call, whatever the memory holds. -/
def Started (x : State β) : Prop :=
  x.machine.Started cfg ∧ (∀ d op, x.done d op = 0) ∧ x.pushed = []

end Exchange

end DeepInc.Worker
