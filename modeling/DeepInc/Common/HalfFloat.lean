/-
The conversions of `CpuReducer` between `half` and `float`.

Both work on bit patterns, and both take the exponents that a `half` has apart from those it
only reaches with a subnormal number.
-/
import Mathlib.Data.Nat.Notation

namespace DeepInc.CpuReducer

/-! ### To `float` -/

/--
`while ((mantissa & (1 << 10)) == 0)`: `mantissa` is shifted until its bit 10 is set, and
`exp` counts down.
-/
def normalize : ℕ → BitVec 32 → BitVec 32 → BitVec 32 × BitVec 32
  | 0, mantissa, exp => (mantissa, exp)
  | fuel + 1, mantissa, exp =>
    if mantissa &&& ((1 : BitVec 32) <<< 10) = 0 then normalize fuel (mantissa <<< 1) (exp - 1)
    else (mantissa, exp)

/-- `HalfBits2Float`.  A mantissa that is not zero is shifted ten times at most. -/
def halfBits2Float (src : BitVec 16) : BitVec 32 :=
  let h := src.setWidth 32
  let sign := (h >>> 15) &&& 1
  let exp := (h >>> 10) &&& 0x1f
  let mantissa := h &&& 0x3ff
  if 0 < exp ∧ exp < 31 then
    let exp := exp + 112
    (sign <<< 31) ||| (exp <<< 23) ||| (mantissa <<< 13)
  else if exp = 0 then
    if mantissa ≠ 0 then
      let exp := exp + 113
      let (mantissa, exp) := normalize 10 mantissa exp
      let mantissa := mantissa &&& 0x3ff
      (sign <<< 31) ||| (exp <<< 23) ||| (mantissa <<< 13)
    else sign <<< 31
  else if exp = 31 then
    if mantissa ≠ 0 then 0x7fffffff else ((0xff : BitVec 32) <<< 23) ||| (sign <<< 31)
  else 0

/-! ### To `half` -/

/-- The end of `Float2HalfBits`: rounding to nearest even, and the sign. -/
def roundHalf (sign u : BitVec 16) (mantissa : BitVec 32) (stickyBit : Bool) : BitVec 16 :=
  let roundBit := (mantissa >>> 12) &&& 1 != 0
  let stickyBit := stickyBit || mantissa &&& (((1 : BitVec 32) <<< 12) - 1) != 0
  let u := if (roundBit && stickyBit) || (roundBit && u &&& 1 != 0) then u + 1 else u
  u ||| sign

/-- `Float2HalfBits`. -/
def float2HalfBits (s : BitVec 32) : BitVec 16 :=
  let sign := ((s >>> 16) &&& 0x8000).setWidth 16
  let exp := (((s >>> 23) &&& 0xff) - 127).setWidth 16
  let mantissa := s &&& 0x7fffff
  if s &&& 0x7fffffff = 0 then sign
  else if 15 < exp.toInt then
    if exp.toInt = 128 ∧ mantissa ≠ 0 then 0x7fff else sign ||| 0x7c00
  else if -14 ≤ exp.toInt then
    let exp := exp + 15
    let u := (exp &&& 0x1f) <<< 10
    let u := (u.setWidth 32 ||| (mantissa >>> 13)).setWidth 16
    roundHalf sign u mantissa false
  else
    let rshift := (-14 - exp.toInt).toNat
    if rshift < 32 then
      let mantissa := mantissa ||| ((1 : BitVec 32) <<< 23)
      let stickyBit := mantissa &&& (((1 : BitVec 32) <<< rshift) - 1) != 0
      let mantissa := mantissa >>> rshift
      let u := (mantissa >>> 13).setWidth 16 &&& 0x3ff
      roundHalf sign u mantissa stickyBit
    else roundHalf sign 0 0 false

end DeepInc.CpuReducer
