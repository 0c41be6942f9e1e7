/-
`OnebitCompressor`.

The signs of a gradient, packed into words, and one scale for all of them.
-/
import DeepInc.Compressor.Common
import Mathlib.Algebra.Field.Defs

namespace DeepInc.Compressor.Onebit

variable {w : ℕ} {K : Type} [Field K] [LinearOrder K]

/-- The words `len` elements are packed into. -/
def chunkLen (w len : ℕ) : ℕ :=
  let paddingLen := (w - len % w) % w
  (len + paddingLen) / w

/-- The scale that is sent. -/
def scale (useScale : Bool) (src : Mem K) (len : ℕ) : K :=
  if useScale then ((List.range len).map fun i => |src i|).sum / (len : K) else 1

/-- The sign of an element, as a word. -/
def signWord (w : ℕ) (negative : Bool) : BitVec w := BitVec.ofNat w negative.toNat

/-- The word after the step `j` of the packing loop of the chunk that starts at `base`. -/
def packed (w : ℕ) (negative : ℕ → Bool) (base : ℕ) : ℕ → BitVec w
  | 0 => signWord w (negative base)
  | j + 1 => (packed w negative base j <<< 1) ||| signWord w (negative (base + (j + 1)))

/-- `OnebitCompressor::CompressImpl`. -/
def compress (useScale : Bool) (dst : Mem (Cell w K)) (src : Mem K) (len : ℕ) :
    Mem (Cell w K) × ℕ :=
  let chunks := chunkLen w len
  (fun i =>
    if i < chunks then .index (packed w (fun n => decide (src n < 0)) (i * w) (w - 1))
    else if i = chunks then .scalar (scale useScale src len)
    else dst i,
   chunks * sizeofIndex w + sizeofFloat)

/-- The words in a compressed tensor. -/
def chunks (w compressedSize : ℕ) : ℕ := (compressedSize - sizeofFloat) / sizeofIndex w

/-- `x & 0x01` in the step that unpacks element `n`, as an `int`. -/
def signBit (src : Mem (Cell w K)) (n : ℕ) : ℤ :=
  (((src (n / w)).asIndex >>> (w - 1 - n % w)) &&& 1).toNat

/-- `OnebitCompressor::DecompressImpl`. -/
def decompress (dst : Mem K) (src : Mem (Cell w K)) (compressedSize : ℕ) : Mem K :=
  let chunkLen := chunks w compressedSize
  let scale := (src chunkLen).asScalar
  fun n =>
    if n < chunkLen * w then
      let sign := 1 - 2 * signBit src n
      (sign : K) * scale
    else dst n

/-- `OnebitCompressor::FastUpdateErrorImpl`. -/
def fastUpdateError (error corrected : Mem K) (compressed : Mem (Cell w K))
    (compressedSize : ℕ) : Mem K :=
  let chunkLen := chunks w compressedSize
  let scale := (compressed chunkLen).asScalar
  fun n =>
    if n < chunkLen * w then
      let sign := 2 * signBit compressed n - 1
      corrected n + (sign : K) * scale
    else error n

/-- `OnebitCompressor`. -/
def impl (w : ℕ) (K : Type) [Field K] [LinearOrder K] (useScale : Bool) : Impl w K where
  compress rng buf src len := .ok (rng, compress useScale buf src len)
  decompress dst src size := .ok (decompress dst src size)
  fastUpdateError error corrected src size := .ok (fastUpdateError error corrected src size)

end DeepInc.Compressor.Onebit
