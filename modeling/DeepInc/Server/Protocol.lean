/-
The server together with its workers.

A `Job` is what the workers of one server do: the keys they share, what every worker
pushes of a key in every round, and which keys they register a compressor for.  Each
worker takes every key through its phases: the init push, the registration where there
is one, and then push and pull in turn, each request waiting for its response.

A request is sent and handled in one step, since its worker does nothing else with the
key in between; a pull response is delivered in a step of its own, because it is
zero-copy and the server goes on in the meantime.  `World.log` is what happened,
newest first.
-/
import DeepInc.Lib.System
import DeepInc.Server.Start

namespace DeepInc.Server

/-- Sync mode, with engine threads to do the work, and at least one worker. -/
structure Config.RunsSync (cfg : Config) : Prop where
  syncMode : cfg.syncMode = true
  isEngineBlocking : cfg.isEngineBlocking = false
  numWorkers : 0 < cfg.numWorkers
  engineThreadNum : 0 < cfg.engineThreadNum

/-- Where a worker is with a key. -/
inductive Phase (α : Type)
  | initPush
  | initWait
  | registerPush
  | registerWait
  | push
  | pushWait
  | pull
  | pullWait
  | answered (r : Response α)

/-- What the workers of a server do with it. -/
structure Job (α κ : Type) (cfg : Config) (codec : Codec α κ) where
  keys : Finset Key
  len : Key → ℕ
  dtype : Key → DataType
  /-- the key is registered for compression -/
  compressed : Key → Bool
  /-- what a worker's init push of the key holds -/
  init : ℕ → Key → Mem α
  /-- the serialized hyper-parameters, and their length -/
  content : Key → Mem α
  contentLen : Key → ℕ
  /-- what a worker pushes of the key in a round -/
  pushed : ℕ → Key → ℕ → Mem α
  /-- its length in bytes, that of its compressed form where the key is compressed -/
  pushedLen : ℕ → Key → ℕ → ℕ
  /-- the keys are in the range of the server -/
  keys_lt : ∀ key ∈ keys, key + cfg.keyBegin < 2 ^ 64
  /-- there is no empty push, and none longer than the tensor -/
  pushedLen_pos : ∀ w key r, 0 < pushedLen w key r
  pushedLen_le : ∀ w key r, pushedLen w key r ≤ len key
  pushedLen_eq : ∀ w key r, compressed key = false → pushedLen w key r = len key
  /-- the registry knows the compressor the hyper-parameters name -/
  created : ∀ key, compressed key = true →
    (codec.create (content key) (contentLen key) (align (len key) (dtype key))
      (dtype key)).isSome = true

namespace Job

variable {α κ : Type} {cfg : Config} {codec : Codec α κ}

/-- The meta data of a request of worker `w`. -/
def reqMeta (job : Job α κ cfg codec) (w : ℕ) (key : Key) (requestType : RequestType)
    (push : Bool) : KVMeta :=
  { type := { requestType := requestType, dtype := job.dtype key }, push := push, sender := w }

/-- The data of a push. -/
def pushData (cfg : Config) (key : Key) (vals : Mem α) (len : ℕ) : KVPairs α :=
  { keys := [cfg.encodeKey key], vals := vals, size := len, lens := [len] }

/-- The data of a pull. -/
def pullData [Zero α] (cfg : Config) (key : Key) : KVPairs α :=
  { KVPairs.empty with keys := [cfg.encodeKey key] }

/-- The request a worker in this phase sends, and the phase it waits in. -/
def request [Zero α] (job : Job α κ cfg codec) (w : ℕ) (key : Key) (round : ℕ) :
    Phase α → Option (Phase α × KVMeta × KVPairs α)
  | .initPush => some (.initWait, job.reqMeta w key .kDefaultPushPull true,
      pushData cfg key (job.init w key) (job.len key))
  | .registerPush => some (.registerWait, job.reqMeta w key .kCompressedPushPull true,
      pushData cfg key (job.content key) (job.contentLen key))
  | .push => some (.pushWait, job.reqMeta w key .kDefaultPushPull true,
      pushData cfg key (job.pushed w key round) (job.pushedLen w key round))
  | .pull => some (.pullWait, job.reqMeta w key .kDefaultPushPull false,
      pullData cfg key)
  | _ => none

/-- The phase a push response takes a worker to. -/
def acked (job : Job α κ cfg codec) (key : Key) : Phase α → Phase α
  | .initWait => if job.compressed key then .registerPush else .push
  | .registerWait => .push
  | .pushWait => .pull
  | p => p

end Job

/-- The server and its workers. -/
structure World (α κ : Type) where
  server : State α κ
  phase : ℕ → Key → Phase α
  /-- the rounds a worker has completed with a key -/
  round : ℕ → Key → ℕ
  log : List (Event α)

/-- A step of the whole. -/
inductive Move
  | request (w : ℕ) (key : Key)
  | pop (i : ℕ)
  | execute (i : ℕ)
  | deliver (w : ℕ) (key : Key)
  deriving DecidableEq, Repr

namespace World

variable {α κ : Type} {cfg : Config} {codec : Codec α κ}

/-- Everything just started, with room in the per-thread tables for every thread. -/
def init (cfg : Config) : World α κ :=
  { server := (startServer cfg).resizeTables cfg.engineThreadNum
    phase := fun _ _ => .initPush
    round := fun _ _ => 0
    log := [] }

/-- Where worker `w` is with `key`, changed. -/
def setPhase (x : World α κ) (w : ℕ) (key : Key) (p : Phase α) : World α κ :=
  { x with phase := Function.update x.phase w (Function.update (x.phase w) key p) }

/-- An event is recorded, and a response moves its worker on. -/
def observe (job : Job α κ cfg codec) (x : World α κ) (e : Event α) : World α κ :=
  let x := { x with log := e :: x.log }
  match e with
  | .pushResponse key w => x.setPhase w key (job.acked key (x.phase w key))
  | .pullResponse r => x.setPhase r.sender r.key (.answered r)
  | _ => x

/-- What a step of the server leaves of the whole. -/
def serve (job : Job α κ cfg codec) (x : World α κ) (r : State α κ × List (Event α)) :
    World α κ :=
  r.2.foldl (observe job) { x with server := r.1 }

variable [Zero α] [Add α]

/-- A worker sends its next request of a key, which the handler takes. -/
def sendRequest (job : Job α κ cfg codec) (x : World α κ) (w : ℕ) (key : Key) (p : Phase α)
    (req : KVMeta) (data : KVPairs α) : Except Fault (World α κ) :=
  let x := x.setPhase w key p
  let x := if req.push then x else x.observe job (.pullRequest key w)
  (x.server.handle cfg codec req data).map (x.serve job)

/-- The step `a`: `none` when it cannot be taken, an error when it ends the server. -/
def move (job : Job α κ cfg codec) (x : World α κ) : Move → Option (Except Fault (World α κ))
  | .request w key =>
    if w < cfg.numWorkers ∧ key ∈ job.keys then
      (job.request w key (x.round w key) (x.phase w key)).map fun r =>
        x.sendRequest job w key r.1 r.2.1 r.2.2
    else none
  | .pop i => some (.ok { x with server := x.server.pop i })
  | .execute i => some ((x.server.execute cfg codec i).map (x.serve job))
  | .deliver w key =>
    match x.phase w key with
    | .answered r =>
      let x := x.observe job (.delivered r (x.server.read r.ptr))
      let round := Function.update (x.round w) key (x.round w key + 1)
      some (.ok { x.setPhase w key .push with round := Function.update x.round w round })
    | _ => none

/-- The step relation of the whole. -/
def Step (job : Job α κ cfg codec) (x : World α κ) (a : Move) (x' : World α κ) : Prop :=
  x.move job a = some (.ok x')

end World

/-! ### Reading the record -/

section Counts

variable {α : Type}

namespace Event

/-- The `ALL_RECV` of a round of `key` was issued. -/
def isIssue (key : Key) : Event α → Bool
  | issued k .allRecv => k = key
  | _ => false

/-- The `ALL_RECV` of a round of `key` was processed. -/
def isResult (key : Key) : Event α → Bool
  | published k _ _ => k = key
  | _ => false

/-- Worker `w` pulled `key`. -/
def isPull (w : ℕ) (key : Key) : Event α → Bool
  | pullRequest k v => k = key ∧ v = w
  | _ => false

/-- A pull of `key` by worker `w` was answered. -/
def isResponse (w : ℕ) (key : Key) : Event α → Bool
  | pullResponse r => r.key = key ∧ r.sender = w
  | _ => false

/-- The answer to a pull of `key` reached worker `w`. -/
def isDelivery (w : ℕ) (key : Key) : Event α → Bool
  | delivered r _ => r.key = key ∧ r.sender = w
  | _ => false

/-- What a round of `key` published. -/
def result (key : Key) : Event α → Option (Mem α × ℕ)
  | published k content len => if k = key then some (content, len) else none
  | _ => none

end Event

/-- The rounds of `key` whose `ALL_RECV` was issued. -/
def issuedRounds (key : Key) (log : List (Event α)) : ℕ := log.countP (Event.isIssue key)

/-- The rounds of `key` whose `ALL_RECV` was processed. -/
def publishedRounds (key : Key) (log : List (Event α)) : ℕ := log.countP (Event.isResult key)

/-- The pulls of `key` by worker `w`. -/
def pulls (w : ℕ) (key : Key) (log : List (Event α)) : ℕ := log.countP (Event.isPull w key)

/-- The responses to pulls of `key` by worker `w`. -/
def responses (w : ℕ) (key : Key) (log : List (Event α)) : ℕ :=
  log.countP (Event.isResponse w key)

/-- The responses to pulls of `key` that reached worker `w`. -/
def deliveries (w : ℕ) (key : Key) (log : List (Event α)) : ℕ :=
  log.countP (Event.isDelivery w key)

/-- What the rounds of `key` published, the first round first. -/
def results (key : Key) (log : List (Event α)) : List (Mem α × ℕ) :=
  log.reverse.filterMap (Event.result key)

end Counts

end DeepInc.Server
