/-
Which bytes the kernels read and write.

A kernel works on three pieces of memory: the data of a partition, the `_buf` of the
compressor and the error buffer.  An `Access` is a stretch of one of them, from the place
the kernel was given a pointer to.  The lists below follow the loops of the kernels; of
`push_heap` and `pop_heap` nothing is said but that they stay in the pairs they are given.

On a worker `Decompress` works in place, so that it copies the message to `_buf` first, and
the message of `FastUpdateError` is the one `Compress` left in `_buf`.
-/
import DeepInc.Compressor.Registry
import DeepInc.Lib.Tiling

namespace DeepInc.Compressor

open Tiling

/-- A piece of memory. -/
inductive Buffer
  | data
  | buf
  | error
  deriving DecidableEq, Repr

/-- Bytes that are read or written. -/
structure Access where
  buffer : Buffer
  write : Bool
  bytes : Range
  deriving DecidableEq, Repr

/-- `len` bytes from `start` on are read. -/
def Access.load (buffer : Buffer) (start len : ℕ) : Access := ⟨buffer, false, ⟨start, len⟩⟩

/-- `len` bytes from `start` on are written. -/
def Access.store (buffer : Buffer) (start len : ℕ) : Access := ⟨buffer, true, ⟨start, len⟩⟩

open Access

namespace Onebit

/-- `CompressImpl`. -/
def compressAccesses (w : ℕ) (useScale : Bool) (len : ℕ) : List Access :=
  let size := sizeofIndex w
  let chunkLen := chunkLen w len
  (if useScale then (List.range len).map fun i => load .data (i * size) size else []) ++
    ((List.range chunkLen).flatMap fun i =>
      ((List.range w).map fun j => load .data ((i * w + j) * size) size) ++
        [store .buf (i * size) size]) ++
    [store .buf (chunkLen * size) sizeofFloat]

/-- `DecompressImpl`. -/
def decompressAccesses (w compressedSize : ℕ) : List Access :=
  let size := sizeofIndex w
  let chunkLen := chunks w compressedSize
  [load .data (chunkLen * size) sizeofFloat, load .data 0 compressedSize,
    store .buf 0 compressedSize] ++
    (List.range chunkLen).flatMap fun i =>
      load .buf (i * size) size :: (List.range w).map fun j => store .data ((i * w + j) * size) size

/-- `FastUpdateErrorImpl`. -/
def fastUpdateErrorAccesses (w compressedSize : ℕ) : List Access :=
  let size := sizeofIndex w
  let chunkLen := chunks w compressedSize
  load .buf (chunkLen * size) sizeofFloat ::
    (List.range chunkLen).flatMap fun i =>
      load .buf (i * size) size ::
        (List.range w).flatMap fun j =>
          [load .data ((i * w + j) * size) size, store .error ((i * w + j) * size) size]

end Onebit

namespace Sparse

variable {w : ℕ} {K : Type}

/-- `DecompressImpl`, of a message in `src`. -/
def decompressAccesses (size : ℕ) (src : Mem (Cell w K)) (compressedSize : ℕ) : List Access :=
  [load .data 0 compressedSize, store .buf 0 compressedSize, store .data 0 size] ++
    (List.range (compressedSize / sizeofPair w)).flatMap fun i =>
      [load .buf (i * sizeofPair w) (sizeofPair w),
        store .data ((getPair src i).1.toNat * sizeofIndex w) (sizeofIndex w)]

/-- `FastUpdateErrorImpl`. -/
def fastUpdateErrorAccesses (size k : ℕ) (compressed : Mem (Cell w K)) : List Access :=
  [load .data 0 size, store .error 0 size] ++
    (List.range k).flatMap fun i =>
      [load .buf (i * sizeofPair w) (sizeofPair w),
        store .error ((getPair compressed i).1.toNat * sizeofIndex w) (sizeofIndex w)]

end Sparse

open Sparse

/-- `CompressImpl` of `TopkCompressor`, after its check. -/
def Topk.compressAccesses (w k len : ℕ) : List Access :=
  (List.range len).flatMap fun i =>
    if i < k then
      [load .data (i * sizeofIndex w) (sizeofIndex w), store .buf (i * sizeofPair w) (sizeofPair w),
        load .buf 0 ((i + 1) * sizeofPair w), store .buf 0 ((i + 1) * sizeofPair w)]
    else
      [load .data (i * sizeofIndex w) (sizeofIndex w), load .buf 0 (sizeofPair w),
        load .buf 0 (k * sizeofPair w), store .buf 0 (k * sizeofPair w)]

/-- `CompressImpl` of `RandomkCompressor`, after its check. -/
def Randomk.compressAccesses (w k : ℕ) (rng : Rng) (len : ℕ) : List Access :=
  (Randomk.selected len k rng).1.zipIdx.flatMap fun p =>
    [load .data (p.1 * sizeofIndex w) (sizeofIndex w), store .buf (p.2 * sizeofPair w) (sizeofPair w)]

/-- What `CompressImpl` of `DitheringCompressor` stores: the words `Put` and `Flush` are done
with, and behind `blocks()` words the number of bits and the scale. -/
def Dithering.compressStores {w : ℕ} {K : Type} (writer : BitWriter w K) : List Access :=
  let size := sizeofIndex w
  let blocks := writer.numBlocksFloat
  let words := if 0 < writer.usedBits then writer.blocks + 1 else writer.blocks
  ((List.range words).map fun i => store .buf (i * size) size) ++
    [store .buf (blocks * size) size, store .buf ((blocks + 1) * size) sizeofFloat]

/-! ### A partition -/

section Kernels

variable {w : ℕ} {K : Type} [Field K] [LinearOrder K]

/-- What follows on a compression to `k` pairs. -/
def sparseAccesses (size k : ℕ) (compressed : Mem (Cell w K) × ℕ) : List Access :=
  Sparse.decompressAccesses size compressed.1 compressed.2 ++
    Sparse.fastUpdateErrorAccesses size k compressed.1

/--
The bytes `Compress` of `len` elements, `Decompress` of the result and `FastUpdateError` of
the result read and write, for the compressor that is made from `kwargs` for buffers of
`size` bytes.  A check that fails comes before all of them.
-/
def accesses (kwargs : Kwargs) (dtype : DataType) (size len : ℕ) (rng : Rng)
    (buf : Mem (Cell w K)) (src : Mem K) : List Access :=
  match kwargs.compressorType with
  | .onebit =>
    let compressed := Onebit.compress kwargs.onebitScaling buf src len
    Onebit.compressAccesses w kwargs.onebitScaling len ++
      Onebit.decompressAccesses w compressed.2 ++ Onebit.fastUpdateErrorAccesses w compressed.2
  | .topk =>
    let k := factorK kwargs.compressorK size dtype
    match Topk.compress k buf src len with
    | .error _ => []
    | .ok compressed => Topk.compressAccesses w k len ++ sparseAccesses size k compressed
  | .randomk =>
    let k := factorK kwargs.compressorK size dtype
    match Randomk.compress k rng buf src len with
    | .error _ => []
    | .ok (_, compressed) =>
      Randomk.compressAccesses w k rng len ++ sparseAccesses size k compressed

end Kernels

end DeepInc.Compressor
