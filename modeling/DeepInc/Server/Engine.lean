/-
The engine threads.

A thread waits for a message, keeps it in `hand`, and executes it; the two are
separate steps, so that other threads and the handler may run in between.  `execute` is
the body of the loop of `DeepIncServerEngineThread` after `WaitAndPop`: `convert` is
what happens around the compressor, and the `switch` follows.
-/
import DeepInc.Server.Handler

namespace DeepInc.Server

variable {α κ : Type}

namespace State

/-- `q->WaitAndPop(&msg)` by thread `i`, which has no message in hand; else it waits. -/
def pop (s : State α κ) (i : ℕ) : State α κ :=
  match s.hand i with
  | some _ => s
  | none =>
    if i < s.engineQueues.size then
      match (s.engineQueues.get i).waitAndPop with
      | none => s
      | some (m, q) =>
        { s with
          engineQueues := s.engineQueues.set i q
          hand := Function.update s.hand i (some m) }
    else s

/-- Compress the result of a round or decompress a push, where the key has a compressor. -/
def convert [Zero α] (codec : Codec α κ) (s : State α κ) (m : EngineMessage α) (src : Ptr α) :
    Except Fault (State α κ × Ptr α × List (Event α)) :=
  match s.compressorMap m.key with
  | some c =>
    if m.ops = .allRecv then
      let (c, grad, size) := codec.compress c (s.read src) m.len m.type.dtype
      let merged := (s.updateBuf m.key).merged
      let s := ((s.setCompressor m.key c).write src grad).setMerged m.key
        { merged with tensor := some (.buf m.key), len := size }
      .ok (s, src, [.published m.key (s.read (.buf m.key)) size])
    else
      match m.sarray.lens with
      | [] => .error (.outOfRange .reqDataLens 0)
      | compressedLen :: _ => do
        check (compressedLen ≤ m.len) .compressedLen
        let c := codec.decompress c (s.read src) compressedLen m.type.dtype
        .ok (s.setCompressor m.key c, .buf m.key, [])
  | none =>
    if m.ops = .allRecv then
      let merged := (s.updateBuf m.key).merged
      let s := s.setMerged m.key { merged with tensor := some src, len := m.len }
      .ok (s, src, [.published m.key (s.read src) m.len])
    else .ok (s, src, [])

/--
The loop over `q_pull_reqmeta_` of an `ALL_RECV`, from `it` on; the window keeps the
requests `it` has passed.
-/
def drain (numWorkers : ℕ) (send : KVMeta → Except Fault (Response α)) :
    Window → List KVMeta → Except Fault (Window × List (Response α))
  | w, [] => .ok (w, [])
  | w, req :: rest =>
    if req.sender ∉ w.seenSender then do
      let r ← send req
      let w := w.count req.sender
      if w.pullCnt = numWorkers then
        .ok ({ w.close with qPullReqmeta := w.qPullReqmeta ++ rest }, [r])
      else do
        let (w, rs) ← drain numWorkers send w rest
        .ok (w, r :: rs)
    else
      let w := { w with qPullReqmeta := w.qPullReqmeta ++ [req] }
      if w.pullCnt = numWorkers then
        .ok ({ w.close with qPullReqmeta := w.qPullReqmeta ++ rest }, [])
      else drain numWorkers send w rest

/-- The case `ALL_RECV`: the window of the round opens, and waiting pulls are answered. -/
def openWindow [Zero α] (cfg : Config) (s : State α κ) (i : ℕ) (key : Key) :
    Except Fault (State α κ × List (Event α)) := do
  let w := s.window i key
  s.index i (w.presentTables ++ [.qPullReqmeta] ++
    if w.qPullReqmeta = [] then [] else [.seenSender, .pullCnt])
  let (w, responses) ← drain cfg.numWorkers (s.sendPullResponse key)
    { w.present with isPushFinished := some true, qPullReqmeta := [] } w.qPullReqmeta
  .ok (s.setWindow i key w, responses.map .pullResponse)

/-- The message thread `i` has in hand is executed. -/
def execute [Zero α] [Add α] (cfg : Config) (codec : Codec α κ) (s : State α κ) (i : ℕ) :
    Except Fault (State α κ × List (Event α)) :=
  match s.hand i with
  | none => .ok (s, [])
  | some m =>
    -- on TERMINATE the thread has left its loop, and asks for no further message
    if m.ops = .terminate then .ok (s, [])
    else
      let s := { s with hand := Function.update s.hand i none }
      match m.dst, m.src with
      | none, _ => .error (.check .dst)
      | some _, none => .error (.check .src)
      | some dst, some src => do
        let (s, src, published) ← s.convert codec m src
        match m.ops with
        | .copyFirst =>
          .ok (s.write dst (CpuReducer.copy (s.read dst) (s.read src) m.len m.type.dtype), published)
        | .sumRecv =>
          .ok (s.write dst (CpuReducer.sum (s.read dst) (s.read src) m.len m.type.dtype), published)
        | .allRecv => do
          let (s, responses) ← s.openWindow cfg i m.key
          .ok (s, published ++ responses)
        | .terminate => .ok (s, published)

end State

/-! ### The server as a system of steps -/

/-- A step of the server. -/
inductive Action (α : Type)
  | handle (req : KVMeta) (data : KVPairs α)
  | pop (i : ℕ)
  | execute (i : ℕ)

/-- What a step leaves, and what it shows. -/
def State.step [Zero α] [Add α] (cfg : Config) (codec : Codec α κ) (s : State α κ) :
    Action α → Except Fault (State α κ × List (Event α))
  | .handle req data => s.handle cfg codec req data
  | .pop i => .ok (s.pop i, [])
  | .execute i => s.execute cfg codec i

/-- What a step leaves. -/
def State.next [Zero α] [Add α] (cfg : Config) (codec : Codec α κ) (s : State α κ)
    (a : Action α) : Except Fault (State α κ) :=
  (s.step cfg codec a).map (·.1)

end DeepInc.Server
