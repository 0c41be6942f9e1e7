/-
`OnebitCompressor` on the numbers it is made for.

`Onebit` has the loops with exact numbers.  Here they compute as the machine does: the absolute
values are added up in a `double`, their mean is stored as a `float`, and what is decompressed
is a `scalar_t`, so that the scale goes through three types before it is in the gradient again.
For `half_t` the last conversion rounds it.

The memory is the one the code has.  A place of it holds a word, a number or the scale, whatever
was written to it last, and the tensor may be decompressed to where it is.
-/
import DeepInc.Common.Half
import DeepInc.Compressor.Onebit
import DeepInc.Lib.FloatModel

namespace DeepInc.Compressor.Onebit

/-! ### Numbers -/

/-- What the loops do with a `scalar_t`. -/
structure ScalarType where
  carrier : Type
  /-- `src[i] < 0` -/
  isNegative : carrier → Bool
  /-- `std::abs(src[i])`, as it is added to a `double` -/
  abs : carrier → Float
  /-- a `float` as a `scalar_t` -/
  ofFloat : Float32 → carrier

/-- `half_t::operator float`. -/
def halfToFloat (h : BitVec 16) : Float32 := .ofBits (.ofBitVec (Half.half2float h))

/-- `half_t`, by its pattern. -/
def half : ScalarType where
  carrier := BitVec 16
  isNegative h := decide (halfToFloat h < 0)
  abs h := FloatModel.toDouble (halfToFloat h).abs
  ofFloat x := Half.float2half x.toBits.toBitVec

/-- `float`. -/
def single : ScalarType where
  carrier := Float32
  isNegative x := decide (x < 0)
  abs x := FloatModel.toDouble x.abs
  ofFloat x := x

/-- `double`. -/
def double : ScalarType where
  carrier := Float
  isNegative x := decide (x < 0)
  abs x := x.abs
  ofFloat := FloatModel.toDouble

/-- The cases of `COMPRESS_IMPL_SWITCH`. -/
def scalarType : DataType → ScalarType
  | .float16 => half
  | .float64 => double
  | _ => single

/-! ### Memory -/

/-- What was written to a place of memory last: an `index_t`, a `scalar_t`, or the scale. -/
inductive Held (w : ℕ) (t : ScalarType)
  | index (x : BitVec w)
  | scalar (x : t.carrier)
  | scale (x : Float32)

/-- The place read as an `index_t`, where one was written. -/
def Held.asIndex {w : ℕ} {t : ScalarType} : Held w t → BitVec w
  | .index x => x
  | _ => 0

/-- The place read as the scale, where it was written. -/
def Held.asScale {w : ℕ} {t : ScalarType} : Held w t → Float32
  | .scale x => x
  | _ => 0

/-- The pieces of memory the pointers of a call may be to. -/
inductive Place
  /-- `_buf` -/
  | buf
  /-- the data of a tensor -/
  | data
  /-- another piece, to decompress to -/
  | other
  deriving DecidableEq, Repr

/-- What the pieces of memory hold. -/
abbrev Memory (w : ℕ) (t : ScalarType) := Place → Mem (Held w t)

variable {w : ℕ} {t : ScalarType}

/-! ### Compression -/

/-- `sum / len`, as a `float`. -/
def mean (src : Mem t.carrier) (len : ℕ) : Float32 :=
  let sum := (List.range len).foldl (fun sum i => sum + t.abs (src i)) 0
  FloatModel.toSingle (sum / (UInt64.ofNat len).toFloat)

/-- `OnebitCompressor::CompressImpl`. -/
def compressImpl (useScale : Bool) (dst : Mem (Held w t)) (src : Mem t.carrier) (len : ℕ) :
    Mem (Held w t) × ℕ :=
  let chunks := chunkLen w len
  let scale := if useScale then mean src len else 1
  (fun i =>
    if i < chunks then .index (packed w (fun n => t.isNegative (src n)) (i * w) (w - 1))
    else if i = chunks then .scale scale
    else dst i,
   chunks * sizeofIndex w + sizeofFloat)

/-! ### Decompression -/

/-- The loop of `DecompressImpl` over the signs of word `i`, from the last on; `x` is the word
without the signs behind. -/
def unpackWord (scale : Float32) (i : ℕ) : ℕ → BitVec w → Mem (Held w t) → Mem (Held w t)
  | 0, _, dst => dst
  | j + 1, x, dst =>
    let sign : ℤ := 1 - 2 * (x &&& 1).toNat
    unpackWord scale i j (x >>> 1)
      (Function.update dst (i * w + j) (.scalar (t.ofFloat (Float32.ofInt sign * scale))))

/-- The loop over the words before the given one, from the last on. -/
def unpackWords (scale : Float32) (ptr dst : Place) : ℕ → Memory w t → Memory w t
  | 0, m => m
  | i + 1, m =>
    let x := (m ptr i).asIndex
    unpackWords scale ptr dst i (Function.update m dst (unpackWord scale i w x (m dst)))

/-- `OnebitCompressor::DecompressImpl`, which copies its input when it would write over it. -/
def decompressImpl (dst src : Place) (m : Memory w t) (compressedSize : ℕ) : Memory w t :=
  let chunkLen := chunks w compressedSize
  let scale := (m src chunkLen).asScale
  if dst = src then
    let m := Function.update m .buf (memcpy w (m .buf) (m src) compressedSize)
    unpackWords scale .buf dst chunkLen m
  else unpackWords scale src dst chunkLen m

end DeepInc.Compressor.Onebit
