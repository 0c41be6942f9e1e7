/-
The hash function of the mixed mode.

Some servers run beside workers and some on machines of their own, and a share of the keys, which
depends on how many there are of each, goes to the latter.  The quotient is taken in `double`, here
exactly, but its divisor is computed as a `size_t`.
-/
import DeepInc.Worker.KeyEncoding
import Mathlib.Algebra.Order.Field.Rat

namespace DeepInc.Worker

/-- The divisor of `ratio`, a `size_t`. -/
def mixedDivisor (numWorkerTotal numServerNoncolocate : ℕ) : ℕ :=
  let product := uint64 (numWorkerTotal * uint64 (numWorkerTotal + numServerNoncolocate))
  uint64 (product + (2 ^ 64 - uint64 (2 * numServerNoncolocate)))

/-- `ratio`; `none` is no number, of which every comparison fails. -/
def mixedRatio (numWorkerTotal numServerNoncolocate : ℕ) : Option ℚ :=
  let divisor := mixedDivisor numWorkerTotal numServerNoncolocate
  if divisor = 0 then none
  else some (2 * numServerNoncolocate * (numWorkerTotal - 1) / divisor : ℚ)

/-- `num_server_noncolocate`, a `size_t`. -/
def numNoncolocate (env : KeyEnv) (numWorkerTotal : ℕ) : ℕ :=
  toUInt64 (env.keyRanges.length - numWorkerTotal)

/-- `hash_res` -/
def hashRes (env : KeyEnv) (bound key : ℕ) : ℕ := hashDJB2 (env.cStr key) % bound

/-- The server a key goes to, by where its hash lies. -/
def mixedServer (env : KeyEnv) (numWorkerTotal bound key : ℕ) (ratio : ℚ) : ℕ :=
  let numServerNoncolocate := numNoncolocate env numWorkerTotal
  let numServerColocate := numWorkerTotal
  let threshold := ratio * bound
  let res := hashRes env bound key
  if (res : ℚ) < threshold then hashDJB2 (env.cStr res) % numServerNoncolocate
  else uint64 (numServerNoncolocate + hashDJB2 (env.cStr res) % numServerColocate)

/-- `Hash_Mixed_Mode`, for a bound that is not negative. -/
def hashMixedModeOf (env : KeyEnv) (numWorkerTotal bound key : ℕ) : Except Fault ℕ := do
  check (decide (env.keyRanges.length ≤ bound))
  match mixedRatio numWorkerTotal (numNoncolocate env numWorkerTotal) with
  | none => .error .check
  | some ratio => do
    check (decide (ratio ≤ 1))
    check (decide (0 ≤ ratio))
    .ok (mixedServer env numWorkerTotal bound key ratio)

end DeepInc.Worker
