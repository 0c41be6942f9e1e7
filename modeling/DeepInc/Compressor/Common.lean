/-
What the compressors share.

A compressor works on memory that is read in two ways: as the words of an `index_t` and
as the numbers of a `scalar_t` of the same width.  A `Cell` is one place of such memory,
and holds what either reading gives.  The arithmetic is exact; the buffers are as long
as they need to be.

`Impl` is what a class derived from `Compressor` overrides.
-/
import DeepInc.Common.CpuReducer
import Mathlib.Algebra.Order.Group.Unbundled.Abs
import Mathlib.Data.Int.Notation
import Mathlib.Data.BitVec

namespace DeepInc.Compressor

/-- What ends a call. -/
inductive Fault
  /-- `BPS_CHECK_LE(this->_k, len / 2)` -/
  | checkK
  /-- `1 << n` with more places than an `int` has, which is undefined -/
  | shift
  /-- the bits read are no code word whose digit count is an `int` -/
  | codeWord
  deriving DecidableEq, Repr

/-- A place in memory of `w` bits: the `index_t` and the `scalar_t` it reads as. -/
abbrev Cell (w : ℕ) (K : Type) := BitVec w × K

namespace Cell

variable {w : ℕ} {K : Type}

/-- The cell as an `index_t`. -/
def asIndex (c : Cell w K) : BitVec w := c.1

/-- The cell as a `scalar_t`. -/
def asScalar (c : Cell w K) : K := c.2

/-- An `index_t` is written; nothing looks at the number behind it. -/
def index [Zero K] (x : BitVec w) : Cell w K := (x, 0)

/-- A `scalar_t` is written; nothing looks at its bits. -/
def scalar (x : K) : Cell w K := (0, x)

@[simp] theorem asIndex_index [Zero K] (x : BitVec w) : (index x : Cell w K).asIndex = x := rfl

@[simp] theorem asScalar_scalar (x : K) : (scalar x : Cell w K).asScalar = x := rfl

end Cell

/-- `sizeof(index_t)`, which is `sizeof(scalar_t)`. -/
def sizeofIndex (w : ℕ) : ℕ := w / 8

/-- `sizeof(float)`, whatever `scalar_t` is. -/
def sizeofFloat : ℕ := 4

/-- The bits of a `scalar_t`. -/
def scalarBits (dtype : DataType) : ℕ := 8 * getDataTypeLength dtype

@[simp] theorem sizeofIndex_scalarBits (dtype : DataType) :
    sizeofIndex (scalarBits dtype) = getDataTypeLength dtype :=
  Nat.mul_div_cancel_left _ (by decide)

theorem eight_le_scalarBits (dtype : DataType) : 8 ≤ scalarBits dtype :=
  Nat.le_mul_of_pos_right 8 (getDataTypeLength_pos dtype)

/-- The data types `COMPRESS_IMPL_SWITCH` has a case for. -/
def Compressible : DataType → Prop
  | .float16 | .float32 | .float64 => True
  | _ => False

/-- `std::memset(dst, 0, size)`. -/
def memset {K : Type} [Zero K] (w : ℕ) (dst : Mem K) (size : ℕ) : Mem K :=
  fun i => if i < size / sizeofIndex w then 0 else dst i

/-- `std::memcpy(dst, src, size)`. -/
def memcpy {K : Type} (w : ℕ) (dst src : Mem K) (size : ℕ) : Mem K :=
  fun i => if i < size / sizeofIndex w then src i else dst i

/-- `XorShift128PlusBitShifterRNG::_state`. -/
structure Rng where
  a : BitVec 64
  b : BitVec 64
  deriving DecidableEq, Repr

/--
What a class derived from `Compressor` overrides.  What it works on besides its
arguments is its random number generator and its `_buf`.
-/
structure Impl (w : ℕ) (K : Type) where
  /-- `CompressImpl` of `len` elements: the bytes of `_buf` that are the result -/
  compress : Rng → Mem (Cell w K) → Mem K → ℕ → Except Fault (Rng × Mem (Cell w K) × ℕ)
  /-- `DecompressImpl`, into `dst` -/
  decompress : Mem K → Mem (Cell w K) → ℕ → Except Fault (Mem K)
  /-- `FastUpdateErrorImpl` of `error` and `corrected` -/
  fastUpdateError : Mem K → Mem K → Mem (Cell w K) → ℕ → Except Fault (Mem K)

end DeepInc.Compressor
