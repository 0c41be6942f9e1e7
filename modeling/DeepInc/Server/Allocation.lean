/-
The block `PageAlignedMalloc` asks for, with its arithmetic on `int`.

The size and the page size are `size_t`, but `DivUp` and `RoundUp` of the server take `int`
arguments.
-/
import DeepInc.Server.Handler
import DeepInc.Worker.KeyEncoding

namespace DeepInc.Server

open DeepInc.Worker (toInt32)

/-- What arithmetic on `int` leaves; there is none when it overflows. -/
def signed (n : ℤ) : Option ℤ := if -2 ^ 31 ≤ n ∧ n < 2 ^ 31 then some n else none

/-- `DivUp`. -/
def divUp (x y : ℤ) : Option ℤ := do
  let sum ← signed (x + y)
  let last ← signed (sum - 1)
  if y = 0 then none else signed (last.tdiv y)

/-- `RoundUp`. -/
def roundUpInt (x y : ℤ) : Option ℤ := do
  let n ← divUp x y
  signed (n * y)

/-- `int size_aligned`, of `size_t` arguments. -/
def sizeAligned (size pageSize : ℕ) : Option ℤ := roundUpInt (toInt32 size) (toInt32 pageSize)

end DeepInc.Server
