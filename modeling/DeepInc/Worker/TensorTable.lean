/-
What the stages of a worker pass on.

A tensor is cut into partitions, each an entry of its own with its own list of the stages it
still has to go through.  A machine integer is the number it holds.
-/
import DeepInc.Common.DataType
import Mathlib.Algebra.Group.Int.Defs

namespace DeepInc.Worker

/-- What ends a call, or keeps it from ending. -/
inductive Fault
  /-- a `BPS_CHECK` -/
  | check
  /-- a pointer that points to nothing -/
  | nullPointer
  /-- a loop that goes on for ever -/
  | hang
  deriving DecidableEq, Repr

/-- A `BPS_CHECK`. -/
def check (c : Bool) : Except Fault Unit := if c then .ok () else .error .check

/-- A number as an `unsigned int` or a `uint32_t`. -/
def uint32 (n : ℕ) : ℕ := n % 2 ^ 32

/-- A number as a `size_t` or a `uint64_t`. -/
def uint64 (n : ℕ) : ℕ := n % 2 ^ 64

/-- An `int` as one. -/
def toUInt64 (n : ℤ) : ℕ := (n % 2 ^ 64).toNat

/-- A number as an `int`, and that as a `size_t`. -/
def int32 (n : ℕ) : ℕ := ((BitVec.ofNat 32 n).signExtend 64).toNat

/-- `enum QueueType`, the stages. -/
inductive QueueType
  | coordinateReduce
  | reduce
  | copyD2H
  | pcieReduce
  | coordinatePush
  | compress
  | push
  | pull
  | decompress
  | copyH2D
  | coordinateBroadcast
  | broadcast
  deriving DecidableEq, Repr

/-- `Tensor`, besides its data. -/
structure Tensor where
  /-- `size()`, in bytes -/
  size : ℕ
  /-- `shape().num_elements()` -/
  numElements : ℕ
  dtype : DataType
  deriving DecidableEq, Repr

/--
`TensorTableEntry`.  The callback goes with the counter; a pointer is the number of what it
points to.
-/
structure TensorTableEntry where
  tensorName : String
  key : ℕ
  tensor : Option Tensor
  output : Option Tensor
  priority : ℤ
  readyEvent : Option ℕ
  device : ℤ
  queueList : List QueueType
  /-- `unsigned int` -/
  offset : ℕ
  /-- `unsigned int` -/
  len : ℕ
  counterPtr : Option ℕ
  /-- `unsigned int` -/
  totalPartnum : ℕ
  /-- the position in `compressor_list` -/
  compressor : Option ℕ
  deriving DecidableEq, Repr

end DeepInc.Worker
