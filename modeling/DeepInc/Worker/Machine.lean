/-
The devices of a machine, and the signals between them.

A machine of one PCIe switch runs a process for every device; the last device is the root.
NCCL calls have to be made by all devices in one order, which the root picks: it waits until
every other device has signalled that a key is ready, and then tells them what to call.  In
the same way it pushes a key when all devices have copied it to the host, and tells them when
it has come back.

A loop does its work in parts, and others may come in between: it takes a task, and hands it
back at any later time.  A signal that is sent to all devices at once is there at once, and
delivered when its turn comes.
-/
import DeepInc.Worker.Pipeline

namespace DeepInc.Worker

/-! ### The stages of a device -/

/-- `GetPushQueueList` -/
def getPushQueueList (isSignalRoot isRootDevice isDistributed isCrossPcieSwitch : Bool) :
    List QueueType :=
  (if isSignalRoot then [.reduce] else [.coordinateReduce, .reduce]) ++
  (if isDistributed || isCrossPcieSwitch then [.copyD2H] else []) ++
  (if isCrossPcieSwitch then [.pcieReduce] else []) ++
  if isDistributed || isCrossPcieSwitch then
    if isRootDevice then [.push] else [.coordinatePush]
  else []

/-- `GetPullQueueList` -/
def getPullQueueList (isSignalRoot isRootDevice isDistributed isCrossPcieSwitch : Bool) :
    List QueueType :=
  (if isDistributed then if isRootDevice then [.pull] else [] else []) ++
  (if isDistributed || isCrossPcieSwitch then [.copyH2D] else []) ++
  if isSignalRoot then [.broadcast] else [.coordinateBroadcast, .broadcast]

/-! ### Signals -/

/-- `BytePSCommSignal` -/
inductive CommSignal
  | reduceReady
  | pcieReduceReady
  | bcastReady
  | pushReady
  | doReduce
  | doBroadcast
  | doGroup
  | doCopyH2D
  deriving DecidableEq, Repr

/-- `BytePSCommMsg` -/
structure CommMsg where
  src : ℕ
  signal : CommSignal
  key : ℕ
  deriving DecidableEq, Repr

/-- The sockets of a device. -/
inductive Comm
  /-- `GetBasicComm` -/
  | basic
  /-- `GetSignalComm` -/
  | nccl
  deriving DecidableEq, Repr

/-! ### The machine -/

/-- What the processes of a machine are started with. -/
structure Machine.Config where
  /-- `_local_size` -/
  localSize : ℕ
  partitionBytes : ℕ
  schedulingCredit : Option ℤ
  sort : TaskSort
  isTrace : Bool
  startStep : ℤ
  endStep : ℤ
  /-- the contexts of every device -/
  context : ℕ → ℕ → TensorContext

namespace Machine.Config

variable (cfg : Machine.Config)

/-- `_root`, of both sockets. -/
def root : ℕ := cfg.localSize - 1

/-- What a device is root of, on a machine of one switch. -/
def role (d : ℕ) : Role where
  isRootDevice := decide (d = cfg.root)
  isSignalRoot := decide (d = cfg.root)
  isReducerRoot := false

/-- The `_ready_count` of the tables `Init` makes, on a machine of one switch. -/
def readyCount : TableName → ℤ
  | .push | .reduce | .broadcast => cfg.localSize - 1
  | .copy => 1
  | .pcieReduce => 0

/-- What does not change while a device runs. -/
def setup (d : ℕ) : Setup where
  partitionBytes := cfg.partitionBytes
  role := cfg.role d
  schedulingCredit := cfg.schedulingCredit
  readyCount := cfg.readyCount
  sort := cfg.sort
  isTrace := cfg.isTrace
  startStep := cfg.startStep
  endStep := cfg.endStep
  context := cfg.context d

/-- The stages a device asks for, on a machine of one switch in a distributed job. -/
def queueList (d : ℕ) : List QueueType :=
  getPushQueueList (cfg.role d).isSignalRoot (cfg.role d).isRootDevice true false ++
    getPullQueueList (cfg.role d).isSignalRoot (cfg.role d).isRootDevice true false

end Machine.Config

/-- What is written down of a run. -/
inductive Machine.Event
  /-- a device has added a task to the queue of its first stage -/
  | begun (d key : ℕ)
  /-- a loop has taken a task -/
  | got (d : ℕ) (op : QueueType) (key : ℕ)
  /-- `FinishOrProceed` has ended a stage -/
  | finished (d : ℕ) (op : QueueType) (key : ℕ)
  /-- the root has heard a signal of a device, or that device one of the root -/
  | heard (signal : CommSignal) (d key : ℕ)
  deriving DecidableEq, Repr

/-- The devices of a machine. -/
structure Machine where
  pipeline : ℕ → Pipeline
  /-- what the coordinate loops have handed on and have still to signal -/
  signalling : ℕ → List (Comm × CommMsg)
  /-- the signals on their way, oldest first, by socket, sender and receiver -/
  inFlight : Comm → ℕ → ℕ → List CommMsg
  /-- what the compress loop has handed to the thread pool -/
  compressing : List Task
  /-- the `NcclGroupEntry` a NCCL loop is at -/
  group : ℕ → List Task
  /-- `_nccl_pipeline`, and in front the group `RunSyncNcclOnce` is at -/
  ncclPipeline : ℕ → List (List Task)
  /-- newest first -/
  log : List Machine.Event

namespace Machine

/-- Before the first call, with what `InitTensor` made of the profiles. -/
def start (cfg : Config) (p : ℕ → Profile) : Machine where
  pipeline d := .start (cfg.setup d) (p d)
  signalling _ := []
  inFlight _ _ _ := []
  compressing := []
  group _ := []
  ncclPipeline _ := []
  log := []

def Started (cfg : Config) (m : Machine) : Prop :=
  ∃ p, (∀ d, Profile.init.setProfileFlag (cfg.setup d) = .ok (p d)) ∧ m = start cfg p

def setPipeline (m : Machine) (d : ℕ) (s : Pipeline) : Machine :=
  { m with pipeline := Function.update m.pipeline d s }

def record (m : Machine) (e : Event) : Machine := { m with log := e :: m.log }

/-- The signals of a socket between two devices are written. -/
def setInFlight (m : Machine) (comm : Comm) (src dst : ℕ) (msgs : List CommMsg) : Machine :=
  { m with
    inFlight := fun comm' src' dst' =>
      if comm' = comm ∧ src' = src ∧ dst' = dst then msgs else m.inFlight comm' src' dst' }

/-- `broadcastSignal`: to every member but the sender itself. -/
def broadcastSignal (cfg : Config) (m : Machine) (comm : Comm) (msg : CommMsg) : Machine :=
  { m with
    inFlight := fun comm' src dst =>
      if comm' = comm ∧ src = msg.src ∧ dst < cfg.localSize ∧ dst ≠ msg.src then
        m.inFlight comm' src dst ++ [msg]
      else m.inFlight comm' src dst }

/-- A NCCL loop adds a task to its group. -/
def addToGroup (m : Machine) (d : ℕ) (t : Task) : Machine :=
  { m with group := Function.update m.group d (m.group d ++ [t]) }

/-- `EnqueueGroup` -/
def enqueueGroup (m : Machine) (d : ℕ) : Machine :=
  { m with
    ncclPipeline := Function.update m.ncclPipeline d (m.ncclPipeline d ++ [m.group d])
    group := Function.update m.group d [] }

/-! ### What signals stand for -/

/-- What a coordinate loop signals, and on which socket. -/
def coordinateSignal : QueueType → Option (Comm × CommSignal)
  | .coordinateReduce => some (.nccl, .reduceReady)
  | .coordinateBroadcast => some (.nccl, .bcastReady)
  | .coordinatePush => some (.basic, .pushReady)
  | _ => none

/-- The table the listen thread counts a signal in. -/
def tableOfSignal : CommSignal → Option TableName
  | .reduceReady => some .reduce
  | .pcieReduceReady => some .pcieReduce
  | .bcastReady => some .broadcast
  | .pushReady => some .push
  | _ => none

/-- The stage a NCCL call is for. -/
def stageOfCall : CommSignal → Option QueueType
  | .doReduce => some .reduce
  | .doBroadcast => some .broadcast
  | _ => none

/-! ### What NCCL waits for -/

/-- The end of a NCCL call of a device is written down. -/
def Event.isSync (d : ℕ) : Event → Bool
  | .finished d' op _ => decide (d' = d ∧ (op = .reduce ∨ op = .broadcast))
  | _ => false

/-- How many NCCL calls of a device are synchronised and handed back. -/
def synced (m : Machine) (d : ℕ) : ℕ := m.log.countP (Event.isSync d)

/-- How many a device has launched: those of the groups it has ended with `ncclGroupEnd`. -/
def launched (m : Machine) (d : ℕ) : ℕ := m.synced d + (m.ncclPipeline d).flatten.length

/--
Every device has launched as many calls as a device has by the end of the group it is to
synchronise.  The calls come in one order on all devices, and a collective of NCCL ends on a
device no sooner than all devices have called it.
-/
def LaunchedByAll (cfg : Config) (m : Machine) (d : ℕ) : Prop :=
  ∀ d' < cfg.localSize, m.synced d + ((m.ncclPipeline d).headD []).length ≤ m.launched d'

/-! ### Loops that take a task -/

section Loops

variable (cfg : Config) (m : Machine) (d : ℕ) (ready : ℕ → Bool) (now : ℤ)

/-- A loop takes a task, and does something with it that takes no time. -/
def takeTask (op : QueueType) (body : Machine → Task → Machine) : Except Stop Machine :=
  let s := m.pipeline d
  match (s.queues op).getTask ready (tableOf (cfg.setup d) s op) with
  | none => .ok m
  | some (t, q, rt) => do
    let s ← take (setTable (cfg.setup d) s op rt) op q t now
    .ok (body ((m.setPipeline d s).record (.got d op t.key)) t)

/-- `RunCoordinateLoopOnce`, up to `FinishOrProceed`. -/
def runCoordinateLoopOnce (op : QueueType) : Except Stop Machine :=
  takeTask cfg m d ready now op fun m _ => m

/-- `RunRootNcclLoopOnce`, for one task of a group. -/
def runRootNcclLoopOnce (op : QueueType) (signal : CommSignal) : Except Stop Machine :=
  takeTask cfg m d ready now op fun m t =>
    let m := m.addToGroup d t
    if 1 < cfg.localSize then m.broadcastSignal cfg .nccl ⟨d, signal, t.key⟩ else m

/-- `RunCopyDevice2HostLoopOnce`, up to the copy. -/
def runCopyDevice2HostLoopOnce : Except Stop Machine :=
  takeTask cfg m d ready now .copyD2H fun m _ => m

/-- `RunCompressLoopOnce`, up to what it hands to the thread pool. -/
def runCompressLoopOnce : Except Stop Machine :=
  takeTask cfg m d ready now .compress fun m t => { m with compressing := t :: m.compressing }

/-- `RunPushLoopOnce`, up to the callback of `ZPush`. -/
def runPushLoopOnce : Except Stop Machine :=
  takeTask cfg m d ready now .push fun m _ => m

/-- `RunPullLoopOnce`, up to the callback of `ZPull`. -/
def runPullLoopOnce : Except Stop Machine :=
  takeTask cfg m d ready now .pull fun m _ => m

/-- `RunDecompressLoopOnce`, up to what it hands to the thread pool. -/
def runDecompressLoopOnce : Except Stop Machine :=
  takeTask cfg m d ready now .decompress fun m _ => m

/-- `RunRootCopyHost2DeviceLoopOnce`, up to the copy. -/
def runRootCopyHost2DeviceLoopOnce : Except Stop Machine :=
  takeTask cfg m d ready now .copyH2D fun m t =>
    if 1 < cfg.localSize then m.broadcastSignal cfg .basic ⟨d, .doCopyH2D, t.key⟩ else m

/-- `RunNonRootCopyHost2DeviceLoopOnce`, up to the copy. -/
def runNonRootCopyHost2DeviceLoopOnce : Except Stop Machine :=
  takeTask cfg m d ready now .copyH2D fun m _ => m

/-- The loops `byteps_lazy_init` starts on the root, and on the other devices. -/
def runLoopOnce (op : QueueType) : Except Stop Machine :=
  if d = cfg.root then
    match op with
    | .reduce => runRootNcclLoopOnce cfg m d ready now .reduce .doReduce
    | .broadcast => runRootNcclLoopOnce cfg m d ready now .broadcast .doBroadcast
    | .copyD2H => runCopyDevice2HostLoopOnce cfg m d ready now
    | .compress => runCompressLoopOnce cfg m d ready now
    | .push => runPushLoopOnce cfg m d ready now
    | .pull => runPullLoopOnce cfg m d ready now
    | .decompress => runDecompressLoopOnce cfg m d ready now
    | .copyH2D => runRootCopyHost2DeviceLoopOnce cfg m d ready now
    | _ => .error .notEnabled
  else
    match op with
    | .coordinateReduce => runCoordinateLoopOnce cfg m d ready now .coordinateReduce
    | .coordinatePush => runCoordinateLoopOnce cfg m d ready now .coordinatePush
    | .coordinateBroadcast => runCoordinateLoopOnce cfg m d ready now .coordinateBroadcast
    | .copyD2H => runCopyDevice2HostLoopOnce cfg m d ready now
    | .copyH2D => runNonRootCopyHost2DeviceLoopOnce cfg m d ready now
    | _ => .error .notEnabled

/-! ### Loops that hand a task back -/

/-- `FinishOrProceed`, by a loop. -/
def finishTask (op : QueueType) (t : Task) : Except Stop Machine := do
  let s ← finishOrProceed (cfg.setup d) (m.pipeline d) t now
  .ok ((m.setPipeline d s).record (.finished d op t.key))

/-- A coordinate loop has handed a task on, and is going to signal it. -/
def coordinate (op : QueueType) (t : Task) : Machine :=
  match coordinateSignal op with
  | some (comm, signal) =>
    { m with
      signalling := Function.update m.signalling d
        (m.signalling d ++ [(comm, ⟨d, signal, t.key⟩)]) }
  | none => m

/--
The loop that has taken a task is done with it.  `RunSyncNcclOnce` is for those of NCCL, and
the thread pool compresses before it goes on.
-/
def runFinish (t : Task) : Except Stop Machine :=
  match t.queueList with
  | [] => .error (.fault .check)
  | op :: _ =>
    if op = .reduce ∨ op = .broadcast ∨ t ∈ m.compressing then .error .notEnabled
    else do
      let m ← finishTask cfg m d now op t
      .ok (m.coordinate d op t)

/-- `RunSyncNcclOnce`, for one task of a group. -/
def runSyncNcclOnce : Except Stop Machine :=
  match m.ncclPipeline d with
  | [] => .ok m
  | [] :: groups => .ok { m with ncclPipeline := Function.update m.ncclPipeline d groups }
  | (t :: ts) :: groups =>
    match t.queueList with
    | [] => .error (.fault .check)
    | op :: _ => do
      let m ← finishTask cfg m d now op t
      .ok { m with ncclPipeline := Function.update m.ncclPipeline d (ts :: groups) }

/-- The thread pool has compressed a task, and restores the count of its key. -/
def runCompress (t : Task) : Except Stop Machine :=
  if t ∈ m.compressing then
    match t.queueList with
    | _ :: op :: _ => do
      let s ← (m.pipeline cfg.root).step (cfg.setup cfg.root) (.reset op t.key (cfg.localSize - 1))
      .ok { m.setPipeline cfg.root s with compressing := m.compressing.erase t }
    | _ => .error .pastEnd
  else .error .notEnabled

end Loops

/-! ### Sending and receiving -/

section Signals

variable (cfg : Config) (m : Machine) (d : ℕ)

/-- `sendSignalToRoot`, by a coordinate loop. -/
def sendSignalToRoot (i : ℕ) : Except Stop Machine :=
  match (m.signalling d)[i]? with
  | none => .error .notEnabled
  | some (comm, msg) =>
    .ok { m.setInFlight comm d cfg.root (m.inFlight comm d cfg.root ++ [msg]) with
      signalling := Function.update m.signalling d ((m.signalling d).eraseIdx i) }

/-- `RunRootNcclLoopOnce`, at the end of a group. -/
def endGroup : Machine :=
  if m.group cfg.root = [] then m
  else (m.broadcastSignal cfg .nccl ⟨cfg.root, .doGroup, 0⟩).enqueueGroup cfg.root

/-- `startListenThread`: the root receives a signal of a device. -/
def startListenThread (comm : Comm) : Except Stop Machine :=
  match m.inFlight comm d cfg.root with
  | [] => .error .notEnabled
  | msg :: msgs =>
    match tableOfSignal msg.signal with
    | none => .error (.fault .check)
    | some name => do
      let s ← (m.pipeline cfg.root).step (cfg.setup cfg.root) (.addReadyCount name msg.key)
      .ok (((m.setInFlight comm d cfg.root msgs).setPipeline cfg.root s).record
        (.heard msg.signal d msg.key))

/-- `RunNonRootNcclLoopOnce`, for one signal of the root. -/
def runNonRootNcclLoopOnce (ready : ℕ → Bool) (now : ℤ) : Except Stop Machine :=
  match m.inFlight .nccl cfg.root d with
  | [] => .error .notEnabled
  | msg :: msgs => do
    orStop (check (decide (msg.src = cfg.root)))
    let m := m.setInFlight .nccl cfg.root d msgs
    if msg.signal = .doGroup then .ok (m.enqueueGroup d)
    else
      match stageOfCall msg.signal with
      | none => .error (.fault .check)
      | some op => do
        let s := m.pipeline d
        let found ← orStop ((s.queues op).getTaskOf ready msg.key)
        match found with
        | none => .error (.fault .check)
        | some (t, q) => do
          let s ← take s op q t now
          .ok (((m.setPipeline d s).addToGroup d t).record (.got d op t.key))

/-- `RunNonRootCopyListenLoopOnce` -/
def runNonRootCopyListenLoopOnce : Except Stop Machine :=
  match m.inFlight .basic cfg.root d with
  | [] => .error .notEnabled
  | msg :: msgs => do
    orStop (check (decide (msg.src = cfg.root)))
    orStop (check (decide (msg.signal = .doCopyH2D)))
    let s ← (m.pipeline d).step (cfg.setup d) (.addReadyCount .copy msg.key)
    .ok (((m.setInFlight .basic cfg.root d msgs).setPipeline d s).record
      (.heard .doCopyH2D d msg.key))

end Signals

/-! ### Steps -/

/-- What the threads of any device do. -/
inductive DeviceAct
  | enqueueTensor (args : EnqueueArgs) (now : ℤ)
  | addNext (call : ℕ)
  /-- a loop takes a task -/
  | getTask (op : QueueType) (ready : ℕ → Bool) (now : ℤ)
  /-- a loop hands a task back -/
  | finish (t : Task) (now : ℤ)
  | syncNccl (now : ℤ)
  | complete (i : ℕ) (now : ℤ)

/-- What the threads of the root do besides. -/
inductive RootAct
  | compress (t : Task)
  | endGroup
  | listen (comm : Comm) (d : ℕ)

/-- What the threads of the other devices do besides. -/
inductive PeerAct
  | sendSignal (i : ℕ)
  | nonRootNccl (ready : ℕ → Bool) (now : ℤ)
  | copyListen

/-- What the threads of a machine do; a device is known by its `_local_rank`. -/
inductive Act
  | device (d : ℕ) (a : DeviceAct)
  | root (a : RootAct)
  | peer (d : ℕ) (a : PeerAct)

/-- A device goes on by itself. -/
def runPipeline (cfg : Config) (m : Machine) (d : ℕ) (a : Worker.Act) : Except Stop Machine :=
  ((m.pipeline d).step (cfg.setup d) a).map (m.setPipeline d)

/-- The loop of `EnqueueTensor` adds its next partition. -/
def runAddNext (cfg : Config) (m : Machine) (d call : ℕ) : Except Stop Machine :=
  match (m.pipeline d).adding.getD call [] with
  | [] => .error .notEnabled
  | t :: _ => (runPipeline cfg m d (.addNext call)).map fun m => m.record (.begun d t.key)

def stepDevice (cfg : Config) (m : Machine) (d : ℕ) : DeviceAct → Except Stop Machine
  | .enqueueTensor args now =>
    runPipeline cfg m d (.enqueueTensor { args with queueList := cfg.queueList d } now)
  | .addNext call => runAddNext cfg m d call
  | .getTask op ready now => runLoopOnce cfg m d ready now op
  | .finish t now => runFinish cfg m d now t
  | .syncNccl now => runSyncNcclOnce cfg m d now
  | .complete i now => runPipeline cfg m d (.complete i now)

def stepRoot (cfg : Config) (m : Machine) : RootAct → Except Stop Machine
  | .compress t => runCompress cfg m t
  | .endGroup => .ok (endGroup cfg m)
  | .listen comm d =>
    if d < cfg.root then startListenThread cfg m d comm else .error .notEnabled

def stepPeer (cfg : Config) (m : Machine) (d : ℕ) : PeerAct → Except Stop Machine
  | .sendSignal i => sendSignalToRoot cfg m d i
  | .nonRootNccl ready now => runNonRootNcclLoopOnce cfg m d ready now
  | .copyListen => runNonRootCopyListenLoopOnce cfg m d

/-- One step of a machine. -/
def step (cfg : Config) (m : Machine) : Act → Except Stop Machine
  | .device d a => if d < cfg.localSize then stepDevice cfg m d a else .error .notEnabled
  | .root a => stepRoot cfg m a
  | .peer d a => if d < cfg.root then stepPeer cfg m d a else .error .notEnabled

end Machine

end DeepInc.Worker
