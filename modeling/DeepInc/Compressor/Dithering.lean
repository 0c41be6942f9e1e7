/-
`DitheringCompressor`.

Every element is rounded at random to one of the levels of a partition of the range, and
the elements that are not rounded to zero are sent as a stream of bits: the distance from
the last one, the sign and the level.  After the stream come the number of its bits and
the scale.
-/
import DeepInc.Compressor.Utils
import Mathlib.Algebra.Order.Floor.Defs
import Mathlib.Algebra.Field.Defs

namespace DeepInc.Compressor.Dithering

/-- `PartitionType`. -/
inductive PartitionType
  | linear
  | natural
  deriving DecidableEq, Repr

/-- `NomalizeType`. -/
inductive NomalizeType
  | max
  | l2
  deriving DecidableEq, Repr

/-- What a `DitheringCompressor` is made with; `sqrt` is `std::sqrt`. -/
structure Params (K : Type) where
  s : BitVec 32
  ptype : PartitionType
  ntype : NomalizeType
  sqrt : K → K

/-- `1 << (_s - 1)`, the levels of the natural partition. -/
def Params.level {K : Type} (p : Params K) : BitVec 32 := (1 : BitVec 32) <<< ((p.s - 1).toNat % 32)

/-- The levels of the partition. -/
def Params.levels {K : Type} (p : Params K) : BitVec 32 :=
  match p.ptype with
  | .linear => p.s
  | .natural => p.level

variable {w : ℕ} {K : Type} [Field K] [LinearOrder K] [FloorSemiring K]

/-! ### Compression -/

/-- `scale`. -/
def scale (p : Params K) (src : Mem K) (len : ℕ) : K :=
  match p.ntype with
  | .max => (List.range len).foldl (fun scale i => if |src i| < scale then scale else |src i|) 0
  | .l2 => p.sqrt ((List.range len).foldl (fun scale i => scale + src i * src i) 0)

/-- `quantized` of an element of absolute value `absX`. -/
def quantize (p : Params K) (scale absX : K) (rng : Rng) : BitVec 32 × Rng :=
  match p.ptype with
  | .linear =>
    let normalized := (absX / scale) * ((p.s.toNat : ℕ) : K)
    let floor := ⌊normalized⌋₊
    let b := rng.bernoulli (normalized - (floor : K))
    (BitVec.ofNat 32 (floor + b.1.toNat), b.2)
  | .natural =>
    let normalized := (absX / scale) * ((p.level.toNat : ℕ) : K)
    let floor := roundNextPow2 (BitVec.ofNat 32 ⌈normalized⌉₊) >>> 1
    let length := if floor ≠ 0 then floor else 1
    let b := rng.bernoulli ((normalized - ((floor.toNat : ℕ) : K)) / ((length.toNat : ℕ) : K))
    (floor + length * BitVec.ofNat 32 b.1.toNat, b.2)

/-- What the loop over the elements carries. -/
structure Loop (w : ℕ) (K : Type) where
  writer : BitWriter w K
  lastNonZeroPos : BitVec 64
  rng : Rng

/-- The step of element `i`; `quantize` is what makes a level of its absolute value. -/
def step (quantize : K → Rng → BitVec 32 × Rng) (src : Mem K) (l : Loop w K) (i : ℕ) : Loop w K :=
  let q := quantize |src i| l.rng
  if q.1 ≠ 0 then
    let diff := BitVec.ofNat 64 i - l.lastNonZeroPos
    let writer := l.writer.eliasDeltaEncode diff.toNat
    let writer := writer.put (decide (src i < 0))
    { writer := writer.eliasDeltaEncode q.1.toNat, lastNonZeroPos := BitVec.ofNat 64 i, rng := q.2 }
  else { l with rng := q.2 }

/-- The loop over all elements. -/
def encodeAll (quantize : K → Rng → BitVec 32 × Rng) (rng : Rng) (dst : Mem (Cell w K))
    (src : Mem K) (len : ℕ) : Loop w K :=
  (List.range len).foldl (step quantize src)
    { writer := .new dst, lastNonZeroPos := -1, rng := rng }

/-- What is stored behind `blocks` words of the stream, and the size of all of it. -/
def putTrailer (blocks : ℕ) (writer : BitWriter w K) (scale : K) : Mem (Cell w K) × ℕ :=
  let data := Function.update writer.data blocks (.index (BitVec.ofNat w writer.bits))
  let data := Function.update data (blocks + 1) (.scalar scale)
  (data, blocks * sizeofIndex w + sizeofIndex w + sizeofFloat)

/-- `DitheringCompressor::CompressImpl`, with exact arithmetic. -/
def compress (p : Params K) (rng : Rng) (dst : Mem (Cell w K)) (src : Mem K) (len : ℕ) :
    Rng × Mem (Cell w K) × ℕ :=
  let scale := scale p src len
  let l := encodeAll (quantize p scale) rng dst src len
  let writer := l.writer.flush
  (l.rng, putTrailer writer.numBlocks writer scale)

/--
`DitheringCompressor::CompressImpl`, where `blocks()` is rounded as a `float` is.  The scale and
the levels are left open: they are rounded as well, and what is said of the stream holds
whichever they are.
-/
def compressFloat (quantize : K → Rng → BitVec 32 × Rng) (scale : K) (rng : Rng)
    (dst : Mem (Cell w K)) (src : Mem K) (len : ℕ) : Rng × Mem (Cell w K) × ℕ :=
  let l := encodeAll quantize rng dst src len
  let writer := l.writer.flush
  (l.rng, putTrailer writer.numBlocksFloat writer scale)

/-- The level of the linear partition before it is converted to `unsigned`, as the operations of
`float` and `double` round it: `floor + _rng.Bernoulli(normalized - floor)`. -/
def levelFloat (s : BitVec 32) (scale absX : ℚ) (rng : Rng) : ℕ × Rng :=
  let normalized := Ieee.float (Ieee.double (Ieee.double (absX / scale) * (s.toNat : ℕ)))
  let floor := ⌊normalized⌋₊
  let b := rng.bernoulliFloat (Ieee.float (normalized - floor))
  (⌊Ieee.float ((floor + b.1.toNat : ℕ) : ℚ)⌋₊, b.2)

/-- `quantized` in the linear partition, as it is rounded; a level of `2 ^ 32` or more is no
`unsigned`, and converting it is undefined. -/
def quantizeFloat (s : BitVec 32) (scale absX : ℚ) (rng : Rng) : BitVec 32 × Rng :=
  let level := levelFloat s scale absX rng
  (BitVec.ofNat 32 level.1, level.2)

/-! ### Decompression -/

/-- The words of the stream in a compressed tensor. -/
def blocks (w compressedSize : ℕ) : ℕ :=
  (compressedSize - sizeofFloat - sizeofIndex w) / sizeofIndex w

/-- One code word of a distance, a sign and a level: the index, `signbit` and `quantized`. -/
def readItem (r : BitReader w K) (last : BitVec 64) :
    Except Fault (BitVec 64 × Bool × BitVec 32 × BitReader w K) := do
  let (diff, r) ← r.eliasDeltaDecode
  let i := last + BitVec.ofNat 64 diff
  let (signbit, r) ← r.get
  let (quantized, r) ← r.eliasDeltaDecode
  .ok (i, signbit, BitVec.ofNat 32 quantized, r)

/-- `(1 - (signbit << 1)) * num`. -/
def signed (p : Params K) (scale : K) (signbit : Bool) (quantized : BitVec 32) : K :=
  let num := ((quantized.toNat : ℕ) : K) * scale / ((p.levels.toNat : ℕ) : K)
  ((1 - 2 * (signbit.toNat : ℤ) : ℤ) : K) * num

/--
The loop over the code words: `visit` is what is done with an index and its value.  A
code word takes a bit at least, so that the loop runs at most once for every bit.
-/
def readLoop (visit : Mem K → ℕ → K → Mem K) (value : Bool → BitVec 32 → K) (bits : ℕ) :
    ℕ → BitReader w K → BitVec 64 → Mem K → Except Fault (Mem K)
  | 0, _, _, m => .ok m
  | fuel + 1, r, last, m =>
    if r.bits < bits then do
      let (i, signbit, quantized, r) ← readItem r last
      readLoop visit value bits fuel r i (visit m i.toNat (value signbit quantized))
    else .ok m

/-- The loop of `DecompressImpl` and `FastUpdateErrorImpl`, over a compressed tensor; `value` is
what a scale, a sign and a level stand for. -/
def readAll (value : K → Bool → BitVec 32 → K) (visit : Mem K → ℕ → K → Mem K)
    (src : Mem (Cell w K)) (compressedSize : ℕ) (m : Mem K) : Except Fault (Mem K) :=
  let blocks := blocks w compressedSize
  let bits := (src blocks).asIndex.toNat
  let scale := (src (blocks + 1)).asScalar
  readLoop visit (value scale) bits bits (.new src) (-1) m

/-- `DitheringCompressor::DecompressImpl`. -/
def decompress (p : Params K) (size : ℕ) (dst : Mem K) (src : Mem (Cell w K))
    (compressedSize : ℕ) : Except Fault (Mem K) :=
  readAll (signed p) (fun dst i x => Function.update dst i x) src compressedSize
    (memset w dst size)

/-- `DitheringCompressor::FastUpdateErrorImpl`. -/
def fastUpdateError (p : Params K) (size : ℕ) (error corrected : Mem K)
    (compressed : Mem (Cell w K)) (compressedSize : ℕ) : Except Fault (Mem K) :=
  readAll (signed p) (fun error i x => Function.update error i (error i - x)) compressed
    compressedSize (memcpy w error corrected size)

/-- `DitheringCompressor`. -/
def impl (w : ℕ) (p : Params K) (size : ℕ) : Impl w K where
  compress rng buf src len := .ok (compress p rng buf src len)
  decompress := decompress p size
  fastUpdateError := fastUpdateError p size

end DeepInc.Compressor.Dithering
