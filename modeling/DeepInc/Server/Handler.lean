/-
The request handler.

`handle` is `DeepIncServerHandle`, which runs under one mutex, so that a request is
one step.  It is cut at its own branches: registering a compressor, the init push, the
push after it, and the pull.  Each returns the state it leaves and, oldest first, what
it sent and what it queued.

`PageAlignedMalloc` hands out disjoint blocks.  The page of the null pointer is not
among them, and a size that `int size_aligned` cannot hold is refused.
-/
import DeepInc.Server.State

namespace DeepInc.Server

variable {α κ : Type}

namespace State

/-! ### Choosing an engine thread -/

/-- The loop of `GetThreadID`: `min_index`, if any, and `min_load` after `n` threads. -/
def minLoadLoop (accLoad : ℕ → ℕ) : ℕ → Option ℕ × ℕ
  | 0 => (none, 2 ^ 64 - 1)
  | i + 1 =>
    let least := minLoadLoop accLoad i
    if accLoad i < least.2 then (some i, accLoad i) else least

/-- `GetThreadID`. -/
def getThreadID (cfg : Config) (s : State α κ) (key : Key) (len : ℕ) :
    Except Fault (ℕ × State α κ) :=
  match s.hashCache key with
  | some t => .ok (t, s)
  | none =>
    if len = 0 then .error (.check .hashCacheFound)
    else do
      check (0 < len) .lenPositive
      check (s.accLoad.size = cfg.engineThreadNum) .accLoadSize
      match (minLoadLoop s.accLoad.get cfg.engineThreadNum).1 with
      | none => .error (.check .minIndexNonneg)
      | some i => do
        check (i < cfg.engineThreadNum) .minIndexLt
        .ok (i, { s with
          accLoad := s.accLoad.set i ((s.accLoad.get i + len) % 2 ^ 64)
          hashCache := Function.update s.hashCache key (some i) })

/-! ### Buffers of a key -/

/-- Write `updates->request`. -/
def setRequest (s : State α κ) (key : Key) (request : List KVMeta) : State α κ :=
  { s with
    updateBuf := Function.update s.updateBuf key { s.updateBuf key with request := request } }

/-- Write `updates->merged`. -/
def setMerged (s : State α κ) (key : Key) (merged : MergedArray α) : State α κ :=
  { s with
    updateBuf := Function.update s.updateBuf key { s.updateBuf key with merged := merged } }

/-- Write `compressor_map_[key]`. -/
def setCompressor (s : State α κ) (key : Key) (c : Compressor α κ) : State α κ :=
  { s with compressorMap := Function.update s.compressorMap key (some c) }

/-- `sysconf(_SC_PAGESIZE)`. -/
def pageSize : ℕ := 4096

/-- `RoundUp`. -/
def roundUp (x y : ℕ) : ℕ := (x + y - 1) / y * y

/-- `posix_memalign` finds a block of `size` bytes besides the `allocated` ones. -/
def memalignOk (allocated size : ℕ) : Bool :=
  decide (size + pageSize < 2 ^ 31) && decide (allocated + roundUp size pageSize + pageSize ≤ 2 ^ 64)

/-- `PageAlignedMalloc`, as far as its `CHECK` on `posix_memalign` goes. -/
def pageAlignedMalloc (s : State α κ) (size : ℕ) : Except Fault (State α κ) := do
  check (memalignOk s.allocated size = true) .posixMemalign
  .ok { s with allocated := s.allocated + roundUp size pageSize }

/-! ### Answers -/

/-- `SendPullResponse`; its second `CHECK` is of the pointer the first one checked. -/
def sendPullResponse [Zero α] (s : State α κ) (key : Key) (req : KVMeta) :
    Except Fault (Response α) :=
  match (s.updateBuf key).merged.tensor with
  | none => .error (.check .mergedTensor)
  | some data =>
    .ok { sender := req.sender, key := key, ptr := data, len := (s.updateBuf key).merged.len,
          snapshot := s.read data }

/--
Buffer the request meta, and answer every buffered one once all workers are there.
-/
def collectInit (s : State α κ) (cfg : Config) (key : Key) (req : KVMeta) :
    State α κ × List (Event α) :=
  let request := (s.updateBuf key).request ++ [req]
  if request.length < cfg.numWorkers then (s.setRequest key request, [])
  else (s.setRequest key [], request.map fun r => .pushResponse key r.sender)

/-! ### Registering a compressor -/

/-- The branch of `kCompressedPushPull`. -/
def registerCompressor (cfg : Config) (codec : Codec α κ) (s : State α κ) (key : Key)
    (req : KVMeta) (data : KVPairs α) : Except Fault (State α κ × List (Event α)) :=
  match s.compressorMap key with
  | some _ => .ok (s.collectInit cfg key req)
  | none =>
    match data.lens with
    | [] => .error (.outOfRange .reqDataLens 0)
    | len :: _ =>
      let stored := s.store key
      match codec.create data.vals len (align stored.len stored.dtype) stored.dtype with
      | none => .error (.check .compressorFound)
      | some c => .ok ((s.setCompressor key c).collectInit cfg key req)

/-! ### Pushes -/

/-- In sync mode an init push notes the length and the type of the merged buffer. -/
def noteMerged (cfg : Config) (s : State α κ) (key : Key) (len : ℕ) (dtype : DataType) :
    State α κ :=
  if cfg.syncMode then
    s.setMerged key { (s.updateBuf key).merged with len := len, dtype := dtype }
  else s

/-- The stored buffer of a key is allocated, and takes the data of the last init push. -/
def initStore [Zero α] (s : State α κ) (key : Key) (data : KVPairs α) (len : ℕ)
    (dtype : DataType) : Except Fault (State α κ) := do
  let s ← s.pageAlignedMalloc (align len dtype)
  let tensor := CpuReducer.copy (fun _ => 0) data.vals len dtype
  .ok { s with
    store := Function.update s.store key { tensor := some tensor, len := len, dtype := dtype } }

/-- The branch of a push that finds no stored buffer. -/
def initPush [Zero α] (cfg : Config) (s : State α κ) (key : Key) (req : KVMeta)
    (data : KVPairs α) (len : ℕ) : Except Fault (State α κ × List (Event α)) :=
  if (s.updateBuf key).request.length + 1 < cfg.numWorkers then
    .ok ((s.noteMerged cfg key len req.type.dtype).collectInit cfg key req)
  else do
    let s ← (s.noteMerged cfg key len req.type.dtype).initStore key data len req.type.dtype
    .ok (s.collectInit cfg key req)

/-- Push to an engine queue. -/
def enqueue (s : State α κ) (tid : ℕ) (m : EngineMessage α) : Except Fault (State α κ) := do
  inRange .engineQueues s.engineQueues.size tid
  .ok (s.pushMessage tid m)

/-- The message a push makes of what it received. -/
def dataMessage (s : State α κ) (key : Key) (req : KVMeta) (data : KVPairs α)
    (ops : EngineOperation) : EngineMessage α :=
  { id := s.timestamp, type := req.type, key := key, dst := some (.stored key),
    src := data.data, len := (s.store key).len, ops := ops, sarray := data }

/-- The message that ends a round. -/
def allRecvMessage [Zero α] (s : State α κ) (key : Key) (req : KVMeta) : EngineMessage α :=
  { id := s.timestamp, type := req.type, key := key, dst := some (.stored key),
    src := some (.stored key), len := (s.store key).len, ops := .allRecv, sarray := .empty }

/-- What a push does with its data. -/
def accumulate [Zero α] [Add α] (cfg : Config) (s : State α κ) (tid : ℕ) (key : Key)
    (req : KVMeta) (data : KVPairs α) (len : ℕ) : Except Fault (State α κ × List (Event α)) :=
  if (s.updateBuf key).request = [] then
    if cfg.syncMode then do
      let m := s.dataMessage key req data .copyFirst
      let s ← s.enqueue tid m
      .ok (s, [.issued key m.ops])
    else
      .ok (s.write (.stored key) (CpuReducer.sum (s.read (.stored key)) data.vals len
        (s.store key).dtype), [])
  else do
    check (cfg.syncMode = true) .syncMode
    if cfg.isEngineBlocking then
      let merged := (s.updateBuf key).merged
      match merged.tensor with
      | none => .error .nullPointer
      | some p => .ok (s.write p (CpuReducer.sum (s.read p) data.vals len merged.dtype), [])
    else do
      let m := s.dataMessage key req data .sumRecv
      let s ← s.enqueue tid m
      .ok (s, [.issued key m.ops])

/-- What the last push of a round does besides. -/
def completeRound [Zero α] (cfg : Config) (s : State α κ) (tid : ℕ) (key : Key) (req : KVMeta)
    (len : ℕ) : Except Fault (State α κ × List (Event α)) :=
  if cfg.isEngineBlocking then
    match (s.updateBuf key).merged.tensor with
    | none => .error .nullPointer
    | some p => .ok (s.write (.stored key)
        (CpuReducer.copy (s.read (.stored key)) (s.read p) len (s.store key).dtype), [])
  else do
    let m := s.allRecvMessage key req
    let s ← s.enqueue tid m
    .ok ({ s with
      engineQueues := s.engineQueues.set tid ((s.engineQueues.get tid).clearCounter key) },
      [.issued key m.ops])

/-- The branch of a push that finds a stored buffer. -/
def push [Zero α] [Add α] (cfg : Config) (s : State α κ) (key : Key) (req : KVMeta)
    (data : KVPairs α) (len : ℕ) : Except Fault (State α κ × List (Event α)) := do
  let (tid, s) ← s.getThreadID cfg key len
  let (s, issued) ← s.accumulate cfg tid key req data len
  let request := (s.updateBuf key).request ++ [req]
  let sent := issued ++ [.pushResponse key req.sender]
  if cfg.syncMode = true ∧ request.length = cfg.numWorkers then do
    let (s, completed) ← s.completeRound cfg tid key req len
    .ok (s.setRequest key [], sent ++ completed)
  else if cfg.syncMode = false then .ok (s.setRequest key [], sent)
  else .ok (s.setRequest key request, sent)

end State

/-! ### Pulls -/

namespace Window

/-- The reset both the first look at a key and a complete round make. -/
def close (w : Window) : Window :=
  { w with isPushFinished := some false, pullCnt := 0, seenSender := ∅ }

/-- A key the tables do not hold yet is entered. -/
def present (w : Window) : Window := if w.isPushFinished = none then w.close else w

/-- The tables that entering a key indexes. -/
def presentTables (w : Window) : List VecName :=
  [.flagMu, .isPushFinished] ++
    if w.isPushFinished = none then [.pullCnt, .seenSender] else []

/-- A worker was answered. -/
def count (w : Window) (sender : ℕ) : Window :=
  { w with pullCnt := w.pullCnt + 1, seenSender := insert sender w.seenSender }

end Window

namespace State

/-- The branch of a pull. -/
def pull [Zero α] (cfg : Config) (s : State α κ) (key : Key) (req : KVMeta) :
    Except Fault (State α κ × List (Event α)) := do
  check ((s.store key).tensor.isSome = true) .storedTensor
  if cfg.isEngineBlocking = true ∨ cfg.syncMode = false then do
    let r ← s.sendPullResponse key req
    .ok (s, [.pullResponse r])
  else do
    let (tid, s) ← s.getThreadID cfg key 0
    s.index tid ((s.window tid key).presentTables ++ [.seenSender])
    let w := (s.window tid key).present
    if w.isPushFinished = some true ∧ req.sender ∉ w.seenSender then do
      let r ← s.sendPullResponse key req
      s.index tid [.pullCnt]
      let w := w.count req.sender
      let w := if w.pullCnt = cfg.numWorkers then w.close else w
      .ok (s.setWindow tid key w, [.pullResponse r])
    else do
      s.index tid [.qPullReqmeta]
      .ok (s.setWindow tid key { w with qPullReqmeta := w.qPullReqmeta ++ [req] }, [])

/-! ### The handler -/

/-- The checks made only when keys are logged. -/
def logChecks (cfg : Config) (req : KVMeta) (data : KVPairs α) : Except Fault Unit :=
  if cfg.logKeyInfo = true ∧ req.push = true then
    match data.lens with
    | [len] => check (data.size = len) .valsSize
    | _ => .error (.check .lensSize)
  else .ok ()

/-- `DeepIncServerHandle`. -/
def handle [Zero α] [Add α] (cfg : Config) (codec : Codec α κ) (s : State α κ) (req : KVMeta)
    (data : KVPairs α) : Except Fault (State α κ × List (Event α)) :=
  match data.keys with
  | [psKey] => do
    logChecks cfg req data
    let key := cfg.decodeKey psKey
    if req.type.requestType = .kCompressedPushPull then
      s.registerCompressor cfg codec key req data
    else if req.push then
      match data.lens with
      | [len] => do
        check (data.size = len) .valsSize
        match (s.store key).tensor with
        | none => s.initPush cfg key req data len
        | some _ => s.push cfg key req data len
      | _ => .error (.check .lensSize)
    else s.pull cfg key req
  | _ => .error (.check .keysSize)

end State

end DeepInc.Server
