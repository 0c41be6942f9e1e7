/-
The state of the server.

The globals of `server.h` are the fields of `State`.  A `std::vector` is a `Vec`,
with its size next to its elements, so that an index out of range is something a run
can hit.  A `std::unordered_map` is a function: the ones read only through
`operator[]` hold the value that operator would insert, the others an `Option`.

A `CHECK` that fails, an index out of range and a write through a null pointer all
end the process; `Fault` says which one it was.
-/
import DeepInc.Server.Queue
import Mathlib.Data.Finset.Basic

namespace DeepInc.Server

/-! ### How a run can end -/

/-- The function a `CHECK` stands in. -/
inductive Site
  | sendPullResponse
  | getThreadID
  | engineThread
  | pageAlignedMalloc
  | handle
  deriving DecidableEq, Repr

/-- The `CHECK`s of the server. -/
inductive Check
  | mergedTensor
  | hashCacheFound
  | lenPositive
  | accLoadSize
  | minIndexNonneg
  | minIndexLt
  | dst
  | src
  | compressedLen
  | posixMemalign
  | keysSize
  | lensSize
  | valsSize
  | compressorFound
  | syncMode
  | storedTensor
  deriving DecidableEq, Repr

/-- Where each `CHECK` stands. -/
def Check.site : Check → Site
  | mergedTensor => .sendPullResponse
  | hashCacheFound | lenPositive | accLoadSize | minIndexNonneg | minIndexLt => .getThreadID
  | dst | src | compressedLen => .engineThread
  | posixMemalign => .pageAlignedMalloc
  | keysSize | lensSize | valsSize | compressorFound | syncMode | storedTensor => .handle

/-- The vectors the server indexes. -/
inductive VecName
  | engineQueues
  | flagMu
  | isPushFinished
  | qPullReqmeta
  | seenSender
  | pullCnt
  | reqDataLens
  deriving DecidableEq, Repr

/-- What ends the process. -/
inductive Fault
  | check (c : Check)
  | outOfRange (v : VecName) (i : ℕ)
  | nullPointer
  deriving DecidableEq, Repr

/-- `CHECK`. -/
def check (p : Prop) [Decidable p] (c : Check) : Except Fault Unit :=
  if p then .ok () else .error (.check c)

/-! ### Vectors -/

/-- A `std::vector`; elements from `size` on are not there. -/
structure Vec (β : Type) where
  size : ℕ
  get : ℕ → β

namespace Vec

variable {β : Type}

/-- `n` times `push_back(b)`. -/
def replicate (n : ℕ) (b : β) : Vec β := { size := n, get := fun _ => b }

/-- Replace the element at `i`. -/
def set (v : Vec β) (i : ℕ) (b : β) : Vec β := { v with get := Function.update v.get i b }

@[simp] theorem set_size (v : Vec β) (i : ℕ) (b : β) : (v.set i b).size = v.size := rfl

@[simp] theorem set_get_self (v : Vec β) (i : ℕ) (b : β) : (v.set i b).get i = b := by
  simp [set]

@[simp] theorem set_get_ne (v : Vec β) {i j : ℕ} (h : j ≠ i) (b : β) :
    (v.set i b).get j = v.get j := by
  simp [set, h]

end Vec

/-- `v[i]` is reached. -/
def inRange (v : VecName) (size i : ℕ) : Except Fault Unit :=
  if i < size then .ok () else .error (.outOfRange v i)

/-! ### Buffers -/

/-- `BytePSArray`, as an entry of `store_`, which owns its memory. -/
structure StoredArray (α : Type) where
  tensor : Option (Mem α)
  len : ℕ
  dtype : DataType

/-- `BytePSArray`, as `UpdateBuf::merged`, which borrows its memory. -/
structure MergedArray (α : Type) where
  tensor : Option (Ptr α)
  len : ℕ
  dtype : DataType

/-- `UpdateBuf`. -/
structure UpdateBuf (α : Type) where
  request : List KVMeta
  merged : MergedArray α

/-- A compressor: `buf` is the `_buf` its results point to, `state` everything else. -/
structure Compressor (α κ : Type) where
  state : κ
  buf : Mem α

/-- The compressors the registry can build, behind their common interface. -/
structure Codec (α κ : Type) where
  /-- `Deserialize` and `CompressorRegistry::Create`, on the received bytes and their length -/
  create : Mem α → ℕ → ℕ → DataType → Option (Compressor α κ)
  /-- `Compress` of `len` bytes: the gradient may be corrected in place, and the result
  is the given number of bytes of the compressor's `buf` -/
  compress : Compressor α κ → Mem α → ℕ → DataType → Compressor α κ × Mem α × ℕ
  /-- `Decompress` of `len` bytes, into the compressor's `buf` -/
  decompress : Compressor α κ → Mem α → ℕ → DataType → Compressor α κ

/-- What the four per-thread tables hold for one key. -/
structure Window where
  /-- `is_push_finished_[t]`, which is looked up before it is read -/
  isPushFinished : Option Bool
  qPullReqmeta : List KVMeta
  seenSender : Finset ℕ
  pullCnt : ℕ
  deriving DecidableEq

/-- What the tables hold of a key nobody asked for. -/
def Window.absent : Window :=
  { isPushFinished := none, qPullReqmeta := [], seenSender := ∅, pullCnt := 0 }

/-! ### The server -/

/-- The knobs, and what `ps::Postoffice` says of the cluster. -/
structure Config where
  numWorkers : ℕ
  /-- the first PS key of this server's range -/
  keyBegin : ℕ
  engineThreadNum : ℕ
  isEngineBlocking : Bool
  logKeyInfo : Bool
  syncMode : Bool
  enableSchedule : Bool
  deriving DecidableEq, Repr

/-- `DecodeKey`, on `uint64_t`. -/
def Config.decodeKey (cfg : Config) (key : ℕ) : Key := (key + (2 ^ 64 - cfg.keyBegin)) % 2 ^ 64

/-- `EncodeKey`. -/
def Config.encodeKey (cfg : Config) (key : Key) : ℕ := (key + cfg.keyBegin) % 2 ^ 64

/-- The globals of the server. -/
structure State (α κ : Type) where
  timestamp : ℕ
  engineQueues : Vec (PriorityQueue α)
  /-- the message an engine thread has popped and not executed yet -/
  hand : ℕ → Option (EngineMessage α)
  store : Key → StoredArray α
  /-- bytes `posix_memalign` has handed out -/
  allocated : ℕ
  updateBuf : Key → UpdateBuf α
  compressorMap : Key → Option (Compressor α κ)
  hashCache : Key → Option ℕ
  accLoad : Vec ℕ
  flagMu : Vec Unit
  isPushFinished : Vec (Key → Option Bool)
  qPullReqmeta : Vec (Key → List KVMeta)
  seenSender : Vec (Key → Finset ℕ)
  pullCnt : Vec (Key → ℕ)

namespace State

variable {α κ : Type}

/-- What the tables of thread `t` hold for `key`. -/
def window (s : State α κ) (t : ℕ) (key : Key) : Window :=
  { isPushFinished := s.isPushFinished.get t key
    qPullReqmeta := s.qPullReqmeta.get t key
    seenSender := s.seenSender.get t key
    pullCnt := s.pullCnt.get t key }

/-- Write what the tables of thread `t` hold for `key`. -/
def setWindow (s : State α κ) (t : ℕ) (key : Key) (w : Window) : State α κ :=
  { s with
    isPushFinished := s.isPushFinished.set t
      (Function.update (s.isPushFinished.get t) key w.isPushFinished)
    qPullReqmeta := s.qPullReqmeta.set t
      (Function.update (s.qPullReqmeta.get t) key w.qPullReqmeta)
    seenSender := s.seenSender.set t (Function.update (s.seenSender.get t) key w.seenSender)
    pullCnt := s.pullCnt.set t (Function.update (s.pullCnt.get t) key w.pullCnt) }

/-- The size of one of the per-thread tables. -/
def tableSize (s : State α κ) : VecName → ℕ
  | .engineQueues => s.engineQueues.size
  | .flagMu => s.flagMu.size
  | .isPushFinished => s.isPushFinished.size
  | .qPullReqmeta => s.qPullReqmeta.size
  | .seenSender => s.seenSender.size
  | .pullCnt => s.pullCnt.size
  | .reqDataLens => 0

/-- Index the tables at `t`, one after another. -/
def index (s : State α κ) (t : ℕ) : List VecName → Except Fault Unit
  | [] => .ok ()
  | v :: rest => (inRange v (s.tableSize v) t).bind fun _ => s.index t rest

/-- What a pointer reads. -/
def read [Zero α] (s : State α κ) : Ptr α → Mem α
  | .stored key => (s.store key).tensor.getD fun _ => 0
  | .buf key => (s.compressorMap key).elim (fun _ => 0) (·.buf)
  | .vals data => data

/-- Write through a pointer; received data is a copy of the message's own. -/
def write (s : State α κ) (p : Ptr α) (m : Mem α) : State α κ :=
  match p with
  | .stored key =>
    { s with store := Function.update s.store key { s.store key with tensor := some m } }
  | .buf key =>
    { s with
      compressorMap := Function.update s.compressorMap key
        ((s.compressorMap key).map fun c => { c with buf := m }) }
  | .vals _ => s

/-- `engine_queues_[tid]->Push(msg)`, with `timestamp_++` for its id. -/
def pushMessage (s : State α κ) (tid : ℕ) (m : EngineMessage α) : State α κ :=
  { s with
    timestamp := (s.timestamp + 1) % 2 ^ 64
    engineQueues := s.engineQueues.set tid ((s.engineQueues.get tid).push m) }

end State

/-! ### What a run shows to the outside -/

/-- What happened, for the record of a run. -/
inductive Event (α : Type)
  /-- a message went to an engine queue -/
  | issued (key : Key) (ops : EngineOperation)
  /-- `SendPushResponse` -/
  | pushResponse (key : Key) (sender : ℕ)
  /-- a pull request reached the handler -/
  | pullRequest (key : Key) (sender : ℕ)
  /-- `SendPullResponse` -/
  | pullResponse (r : Response α)
  /-- an engine thread made a round's result the one pulls are answered with -/
  | published (key : Key) (content : Mem α) (len : ℕ)
  /-- a pull response reached its worker; `content` is what its pointer read then -/
  | delivered (r : Response α) (content : Mem α)

/-- The key an event is about. -/
def Event.key {α : Type} : Event α → Key
  | issued key _ => key
  | pushResponse key _ => key
  | pullRequest key _ => key
  | pullResponse r => r.key
  | published key _ _ => key
  | delivered r _ => r.key

end DeepInc.Server
