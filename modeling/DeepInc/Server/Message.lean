/-
The messages of the server.

What arrives from a worker (`KVMeta` and `KVPairs`), what the handler hands to an
engine thread (`EngineMessage`), and what goes back (`Response`).  Lengths are in
bytes, as in the source; the memory behind a pointer is read element by element of
the tensor's data type, so that a sum is a sum of elements.

A command is carried as the pair `DepairDataHandleType` makes of it.
-/
import DeepInc.Common.CpuReducer
import Mathlib.Algebra.Notation.Defs

namespace DeepInc.Server

/-- A PS key after `DecodeKey`. -/
abbrev Key := ℕ

/-- `DataHandleType`. -/
structure DataHandleType where
  requestType : RequestType
  dtype : DataType
  deriving DecidableEq, Repr

/-- The fields of `ps::KVMeta` the server reads. -/
structure KVMeta where
  /-- `DepairDataHandleType(cmd)` -/
  type : DataHandleType
  push : Bool
  sender : ℕ
  deriving DecidableEq, Repr

/-- `ps::KVPairs<char>`. -/
structure KVPairs (α : Type) where
  keys : List Key
  vals : Mem α
  /-- `vals.size()` -/
  size : ℕ
  lens : List ℕ

/-- The `KVPairs` a message without data carries. -/
def KVPairs.empty {α : Type} [Zero α] : KVPairs α :=
  { keys := [], vals := fun _ => 0, size := 0, lens := [] }

/-- Where a pointer of the server points. -/
inductive Ptr (α : Type)
  /-- `store_[key].tensor` -/
  | stored (key : Key)
  /-- the `_buf` of the compressor of `key` -/
  | buf (key : Key)
  /-- received data, which nothing writes to -/
  | vals (data : Mem α)

/-- `req_data.vals.data()`: null when nothing was received. -/
def KVPairs.data {α : Type} (d : KVPairs α) : Option (Ptr α) :=
  if d.size = 0 then none else some (.vals d.vals)

/-- `BytePSEngineOperation`. -/
inductive EngineOperation
  | sumRecv
  | copyFirst
  | allRecv
  | terminate
  deriving DecidableEq, Repr

/-- `BytePSEngineMessage`. -/
structure EngineMessage (α : Type) where
  id : ℕ
  type : DataHandleType
  key : Key
  dst : Option (Ptr α)
  src : Option (Ptr α)
  len : ℕ
  ops : EngineOperation
  /-- holds the received data until the message is executed -/
  sarray : KVPairs α

/-- A pull response as handed to `server->Response`. -/
structure Response (α : Type) where
  sender : ℕ
  key : Key
  /-- the response is zero-copy: it carries the pointer `updates->merged.tensor` -/
  ptr : Ptr α
  len : ℕ
  /-- what the pointer read when `SendPullResponse` ran -/
  snapshot : Mem α

end DeepInc.Server
