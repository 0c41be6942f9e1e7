/-
The vocabulary workers and servers share.

Element types and their widths, the alignment every buffer is rounded up to, and
the request types a command carries.  The order of the constructors is the order
of the enumerators in `common.h`, so that `DataType` and the `dtype` integer of a
command agree.
-/
import Mathlib.Algebra.Group.Nat.Defs

namespace DeepInc

/-- `enum DataType`. -/
inductive DataType
  | float32
  | float64
  | float16
  | uint8
  | int32
  | int8
  | int64
  deriving DecidableEq, Repr

/-- `getDataTypeLength`: the bytes of one element. -/
def getDataTypeLength : DataType → ℕ
  | .int8 | .uint8 => 1
  | .float16 => 2
  | .int32 | .float32 => 4
  | .int64 | .float64 => 8

theorem getDataTypeLength_pos (dtype : DataType) : 0 < getDataTypeLength dtype := by
  cases dtype <;> decide

/-- `Align`: `size` rounded up to a whole number of packed words. -/
def align (size : ℕ) (dtype : DataType) : ℕ :=
  let minSize := getDataTypeLength dtype * getDataTypeLength dtype * 8
  size + (minSize - size % minSize) % minSize

/-- `enum class RequestType`. -/
inductive RequestType
  | kDefaultPushPull
  | kRowSparsePushPull
  | kCompressedPushPull
  deriving DecidableEq, Repr

end DeepInc
