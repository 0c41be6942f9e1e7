/-
How a request type and a data type are carried in one `int`.

The pairs are numbered along the diagonals, and the diagonal of a number is found with a square
root.  Arithmetic on `int` that overflows is undefined; the root is taken in `double`.
-/
import DeepInc.Common.DataType
import DeepInc.Lib.Ieee

namespace DeepInc

/-- Why a command is not computed. -/
inductive CommandFault
  /-- arithmetic on `int` overflows -/
  | overflow
  /-- the root of a negative number becomes an `int` -/
  | notANumber
  /-- `CHECK_GE` -/
  | check
  deriving DecidableEq, Repr

/-- A result that has to be an `int`. -/
def checkInt (n : ℤ) : Except CommandFault ℤ :=
  if -2 ^ 31 ≤ n ∧ n < 2 ^ 31 then .ok n else .error .overflow

/-- `GetCommandType`, of the value of a request type. -/
def getCommandType (requestType d : ℤ) : Except CommandFault ℤ := do
  let m := requestType
  let sum ← checkInt (m + d)
  let next ← checkInt (sum + 1)
  let product ← checkInt (sum * next)
  checkInt (product.tdiv 2 + d)

/-- The diagonal `DepairDataHandleType` finds; an `int` is a `double` as it is. -/
def diagonalOf (radicand : ℤ) : ℤ :=
  ⌊Ieee.double (Ieee.double (Ieee.sqrt 53 radicand - 1) / 2)⌋

/-- `DepairDataHandleType`, as the values of the request type and of the data type. -/
def depairDataHandleType (cmd : ℤ) : Except CommandFault (ℤ × ℤ) := do
  let eightfold ← checkInt (8 * cmd)
  let radicand ← checkInt (eightfold + 1)
  if radicand < 0 then .error .notANumber
  else do
    let w ← checkInt (diagonalOf radicand)
    let square ← checkInt (w * w)
    let double ← checkInt (square + w)
    let t := double.tdiv 2
    let y ← checkInt (cmd - t)
    let x ← checkInt (w - y)
    if 0 ≤ x ∧ 0 ≤ y then .ok (x, y) else .error .check

/-- The value of an enumerator of `RequestType`. -/
def RequestType.value : RequestType → ℤ
  | .kDefaultPushPull => 0
  | .kRowSparsePushPull => 1
  | .kCompressedPushPull => 2

/-- The value of an enumerator of `DataType`. -/
def DataType.value : DataType → ℤ
  | .float32 => 0
  | .float64 => 1
  | .float16 => 2
  | .uint8 => 3
  | .int32 => 4
  | .int8 => 5
  | .int64 => 6

end DeepInc
