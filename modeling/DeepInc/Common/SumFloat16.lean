/-
`CpuReducer::_sum_float16`.

A build with `__AVX__` and `__F16C__` sums eight elements at a time where the processor has the
instructions, and the elements that are left one by one.  Any other build sums all elements one
by one.
-/
import DeepInc.Common.CpuReducer
import DeepInc.Common.HalfFloat
import Mathlib.Logic.Function.Basic

namespace DeepInc.CpuReducer

/-- `HalfBits2Float`, and the `float` of the pattern. -/
def toFloat (h : BitVec 16) : Float32 := .ofBits (.ofBitVec (halfBits2Float h))

/-- `Float2HalfBits`, of the pattern of a `float`. -/
def ofFloat (x : Float32) : BitVec 16 := float2HalfBits x.toBits.toBitVec

/-- What is compiled: the branch with vectors and what `is_avx_and_f16c()` returns, or `#else`. -/
inductive Build
  | avx (isAvxAndF16c : Bool)
  | scalar
  deriving DecidableEq, Repr

/-! ### Vectors -/

/-- The eight lanes of a vector. -/
abbrev Lanes (α : Type) := Fin 8 → α

/-- `_mm_loadu_si128`. -/
def loadu (m : Mem (BitVec 16)) (i : ℕ) : Lanes (BitVec 16) := fun k => m (i + k)

/-- `_mm_storeu_si128`. -/
def storeu (m : Mem (BitVec 16)) (i : ℕ) (v : Lanes (BitVec 16)) : Mem (BitVec 16) := fun j =>
  if h : i ≤ j ∧ j < i + 8 then v ⟨j - i, by omega⟩ else m j

/-- `_mm256_cvtph_ps`. -/
def cvtphPs (v : Lanes (BitVec 16)) : Lanes Float32 := fun k => toFloat (v k)

/-- `_mm256_cvtps_ph`, rounding to nearest even. -/
def cvtpsPh (x : Lanes Float32) : Lanes (BitVec 16) := fun k => ofFloat (x k)

/-- `_mm256_add_ps`. -/
def addPs (x y : Lanes Float32) : Lanes Float32 := fun k => x k + y k

/-- `_mm256_mul_ps`. -/
def mulPs (x y : Lanes Float32) : Lanes Float32 := fun k => x k * y k

/-! ### The loops -/

/-- `for (size_t i = 0; i < (len / 8) * 8; i += 8)`. -/
def vectorLoop (body : Mem (BitVec 16) → ℕ → Mem (BitVec 16)) (len : ℕ) (m : Mem (BitVec 16)) :
    Mem (BitVec 16) :=
  ((List.range (len / 8)).map (· * 8)).foldl body m

/-- `for (size_t i = start; i < len; ++i)`. -/
def elementLoop (body : Mem (BitVec 16) → ℕ → Mem (BitVec 16)) (start len : ℕ)
    (m : Mem (BitVec 16)) : Mem (BitVec 16) :=
  (List.range' start (len - start)).foldl body m

/-- The four functions, which differ in the bodies of their loops; `len` counts bytes. -/
def sumFloat16With (vector element : Mem (BitVec 16) → ℕ → Mem (BitVec 16)) (build : Build)
    (dst : Mem (BitVec 16)) (len : ℕ) : Mem (BitVec 16) :=
  let len := len / 2
  match build with
  | .avx isAvxAndF16c =>
    let dst := if isAvxAndF16c then vectorLoop vector len dst else dst
    elementLoop element (len / 8 * 8) len dst
  | .scalar => elementLoop element 0 len dst

/-- `_sum_float16(dst, src, len)`. -/
def sumFloat16 (build : Build) (dst src : Mem (BitVec 16)) (len : ℕ) : Mem (BitVec 16) :=
  sumFloat16With
    (fun inout i =>
      let inPs := cvtphPs (loadu src i)
      let inoutPs := cvtphPs (loadu inout i)
      storeu inout i (cvtpsPh (addPs inPs inoutPs)))
    (fun inout i => Function.update inout i (ofFloat (toFloat (inout i) + toFloat (src i))))
    build dst len

/-- `_sum_float16(dst, src1, src2, len)`. -/
def sumFloat16Of (build : Build) (dst src1 src2 : Mem (BitVec 16)) (len : ℕ) : Mem (BitVec 16) :=
  sumFloat16With
    (fun out i =>
      let inPs := cvtphPs (loadu src1 i)
      let inoutPs := cvtphPs (loadu src2 i)
      storeu out i (cvtpsPh (addPs inPs inoutPs)))
    (fun out i => Function.update out i (ofFloat (toFloat (src1 i) + toFloat (src2 i))))
    build dst len

/-- `_sum_float16(dst, src, len, alpha)`. -/
def sumFloat16Scaled (build : Build) (dst src : Mem (BitVec 16)) (len : ℕ) (alpha : Float32) :
    Mem (BitVec 16) :=
  sumFloat16With
    (fun inout i =>
      let inPs := cvtphPs (loadu src i)
      let inoutPs := cvtphPs (loadu inout i)
      let scaledInPs := mulPs inPs fun _ => alpha
      storeu inout i (cvtpsPh (addPs scaledInPs inoutPs)))
    (fun inout i =>
      Function.update inout i (ofFloat (toFloat (inout i) + toFloat (src i) * alpha)))
    build dst len

/-- `_sum_float16(dst, src1, src2, len, alpha)`. -/
def sumFloat16OfScaled (build : Build) (dst src1 src2 : Mem (BitVec 16)) (len : ℕ)
    (alpha : Float32) : Mem (BitVec 16) :=
  sumFloat16With
    (fun out i =>
      let in1Ps := cvtphPs (loadu src1 i)
      let in2Ps := cvtphPs (loadu src2 i)
      let scaledIn2Ps := mulPs in2Ps fun _ => alpha
      storeu out i (cvtpsPh (addPs in1Ps scaledIn2Ps)))
    (fun out i =>
      Function.update out i (ofFloat (toFloat (src1 i) + toFloat (src2 i) * alpha)))
    build dst len

end DeepInc.CpuReducer
