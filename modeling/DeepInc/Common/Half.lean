/-
The conversions of `half_t` between `half` and `float`.

Both compare patterns as integers.  `float2half` rounds by adding half of the last bit that is
kept; `half2float` moves the exponent where there is one, and multiplies a subnormal number.
-/
import Mathlib.Data.Nat.Notation

namespace DeepInc.Half

/-! ### Constants -/

def fp16FractionBits : ℕ := 10

def fp32FractionBits : ℕ := 23

def fp32FractionMask : BitVec 32 := ~~~(~~~(0 : BitVec 32) <<< fp32FractionBits)

def fp32HiddenBit : BitVec 32 := 1 <<< fp32FractionBits

def shift : ℕ := fp32FractionBits - fp16FractionBits

def shiftSign : ℕ := 16

def expAdjust : BitVec 32 := 127 - 15

/-- Infinity. -/
def infN : BitVec 32 := 0x7F800000

/-- The greatest `float` that is not infinite after the shift. -/
def maxN : BitVec 32 := 0x477FFFFF

/-- The least normal `half`, as a `float`. -/
def minN : BitVec 32 := 0x38800000

/-- The greatest `float` that is rounded to zero. -/
def maxZ : BitVec 32 := 0x33000000

def signN : BitVec 32 := 0x80000000

def infC : BitVec 32 := infN.sshiftRight shift

/-- The least NaN of a `half`, as a `float`. -/
def nanN : BitVec 32 := (infC + 1) <<< shift

def maxC : BitVec 32 := maxN.sshiftRight shift

def minC : BitVec 32 := minN.sshiftRight shift

def signC : BitVec 32 := signN.sshiftRight shiftSign

def mulC : BitVec 32 := 0x33800000

/-- The greatest subnormal `half`. -/
def subC : BitVec 32 := 0x003FF

/-- The least normal `half`. -/
def norC : BitVec 32 := 0x00400

def maxD : BitVec 32 := infC - maxC - 1

def minD : BitVec 32 := minC - subC - 1

/-! ### To `half` -/

/-- `float2half`, without the sign and before the last shift. -/
def roundMagnitude (v : BitVec 32) : BitVec 32 :=
  if v.sle maxZ then 0
  else if v.slt minN then
    let exp32 := v >>> fp32FractionBits
    let exp16 := exp32 - expAdjust
    let vshift := 1 - exp16
    let significand := fp32HiddenBit ||| (v &&& fp32FractionMask)
    let v := significand >>> vshift
    v + if v &&& 0x3fff ≠ 0x1000 ∨ significand &&& 0x7ff ≠ 0 then 0x1000 else 0
  else if v.sle maxN then
    let v := v + if v &&& 0x3fff ≠ 0x1000 then 0x1000 else 0
    v - (expAdjust <<< fp32FractionBits)
  else if v.sle infN then infN
  else if v.slt nanN then nanN
  else v

/-- `float2half`, rounding to nearest. -/
def float2half (value : BitVec 32) : BitVec 16 :=
  let sign := value &&& signN
  let v := value ^^^ sign
  let sign := sign >>> shiftSign
  let v := roundMagnitude v >>> shift
  (sign ||| (v &&& 0x7fff)).setWidth 16

/-! ### To `float` -/

/-- `-(condition)`: all bits or none. -/
def maskOf (condition : Bool) : BitVec 32 := -(if condition then 1 else 0)

/-- `s.f *= v.si`, where `s.f` is `mulC` and `v.si` is not negative. -/
def mulSubnormal (v : BitVec 32) : BitVec 32 :=
  (Float32.ofBits (.ofBitVec mulC) * (UInt32.ofBitVec v).toFloat32).toBits.toBitVec

/-- `half2float`. -/
def half2float (value : BitVec 16) : BitVec 32 :=
  let v := value.setWidth 32
  let sign := v &&& signC
  let v := v ^^^ sign
  let sign := sign <<< shiftSign
  let v := v ^^^ (((v + minD) ^^^ v) &&& maskOf (subC.slt v))
  let v := v ^^^ (((v + maxD) ^^^ v) &&& maskOf (maxC.slt v))
  let s := mulSubnormal v
  let mask := maskOf (v.slt norC)
  let v := v <<< shift
  let v := v ^^^ ((s ^^^ v) &&& mask)
  v ||| sign

end DeepInc.Half
