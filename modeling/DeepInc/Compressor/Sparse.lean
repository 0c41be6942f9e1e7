/-
`TopkCompressor` and `RandomkCompressor`.

Both send `k` elements of a gradient with their indices, and differ in which ones.  The
pairs are an index and a value in the next cell.
-/
import DeepInc.Compressor.Utils
import DeepInc.Lib.Heap

namespace DeepInc.Compressor

/-! ### Pairs -/

namespace Sparse

variable {w : ℕ} {K : Type}

/-- `pair_t`. -/
abbrev Pair (w : ℕ) (K : Type) := BitVec w × K

/-- `sizeof(pair_t)`. -/
def sizeofPair (w : ℕ) : ℕ := 2 * sizeofIndex w

/-- `ptr[i] = pair`, of an array of pairs. -/
def setPair [Zero K] (ptr : Mem (Cell w K)) (i : ℕ) (p : Pair w K) : Mem (Cell w K) :=
  Function.update (Function.update ptr (2 * i) (.index p.1)) (2 * i + 1) (.scalar p.2)

/-- `ptr[i]`. -/
def getPair (ptr : Mem (Cell w K)) (i : ℕ) : Pair w K :=
  ((ptr (2 * i)).asIndex, (ptr (2 * i + 1)).asScalar)

/-- Pairs at the start of an array. -/
def setPairs [Zero K] (ptr : Mem (Cell w K)) (ps : List (Pair w K)) : Mem (Cell w K) :=
  (ps.zipIdx).foldl (fun ptr p => setPair ptr p.2 p.1) ptr

/-- The first `k` pairs of an array. -/
def getPairs (ptr : Mem (Cell w K)) (k : ℕ) : List (Pair w K) :=
  (List.range k).map (getPair ptr)

/-- `DecompressImpl` of both: `dst` is zero but for the pairs. -/
def decompress [Zero K] (size : ℕ) (dst : Mem K) (src : Mem (Cell w K)) (compressedSize : ℕ) :
    Mem K :=
  (getPairs src (compressedSize / sizeofPair w)).foldl
    (fun dst p => Function.update dst p.1.toNat p.2) (memset w dst size)

/-- `FastUpdateErrorImpl` of both: `error` is `corrected`, but zero for the first `k` pairs. -/
def fastUpdateError [Zero K] (size k : ℕ) (error corrected : Mem K)
    (compressed : Mem (Cell w K)) : Mem K :=
  (getPairs compressed k).foldl (fun error p => Function.update error p.1.toNat 0)
    (memcpy w error corrected size)

end Sparse

open Sparse

/-! ### The greatest elements -/

namespace Topk

section Heap

variable {ι K : Type} [AddGroup K] [LinearOrder K]

/-- `comp`, which does not look at the index. -/
def comp (lhs rhs : ι × K) : Bool := decide (|rhs.2| < |lhs.2|)

/-- Element `i` is offered to the heap of the `k` greatest ones; `mk` makes its index. -/
def offer (mk : ℕ → ι) (k : ℕ) (src : Mem K) (heap : List (ι × K)) (i : ℕ) : List (ι × K) :=
  if i < k then ListHeap.pushHeap comp (heap ++ [(mk i, src i)])
  else
    match heap with
    -- there is a top: the factory gives no `k` of zero
    | [] => []
    | top :: _ =>
      if |top.2| < |src i| then
        ListHeap.pushHeap comp ((ListHeap.popHeap comp heap).dropLast ++ [(mk i, src i)])
      else heap

/-- The heap after the loop over `len` elements. -/
def heap (mk : ℕ → ι) (k : ℕ) (src : Mem K) (len : ℕ) : List (ι × K) :=
  (List.range len).foldl (offer mk k src) []

end Heap

variable {w : ℕ} {K : Type} [AddGroup K] [LinearOrder K]

/-- The positions whose elements are sent, in the order of the pairs. -/
def selected (k : ℕ) (src : Mem K) (len : ℕ) : List ℕ := (heap id k src len).map (·.1)

/-- `TopkCompressor::CompressImpl`. -/
def compress (k : ℕ) (dst : Mem (Cell w K)) (src : Mem K) (len : ℕ) :
    Except Fault (Mem (Cell w K) × ℕ) :=
  if k ≤ len / 2 then
    .ok (setPairs dst (heap (BitVec.ofNat w) k src len), k * sizeofPair w)
  else .error .checkK

/-- `TopkCompressor`. -/
def impl (w : ℕ) (K : Type) [AddGroup K] [LinearOrder K] (size k : ℕ) : Impl w K where
  compress rng buf src len := (compress k buf src len).map fun r => (rng, r)
  decompress dst src compressedSize := .ok (decompress size dst src compressedSize)
  fastUpdateError error corrected src _ := .ok (fastUpdateError size k error corrected src)

end Topk

/-! ### Random elements -/

namespace Randomk

variable {w : ℕ} {K : Type} [Zero K]

/-- The positions `k` steps of the loop draw. -/
def selected (len : ℕ) : ℕ → Rng → List ℕ × Rng
  | 0, rng => ([], rng)
  | k + 1, rng =>
    let n := rng.randint len
    let r := selected len k n.2
    (n.1 :: r.1, r.2)

/-- `RandomkCompressor::CompressImpl`. -/
def compress (k : ℕ) (rng : Rng) (dst : Mem (Cell w K)) (src : Mem K) (len : ℕ) :
    Except Fault (Rng × Mem (Cell w K) × ℕ) :=
  if k ≤ len / 2 then
    let r := selected len k rng
    .ok (r.2, setPairs dst (r.1.map fun index => (BitVec.ofNat w index, src index)),
      k * sizeofPair w)
  else .error .checkK

/-- `RandomkCompressor`. -/
def impl (w : ℕ) (K : Type) [Zero K] (size k : ℕ) : Impl w K where
  compress := compress k
  decompress dst src compressedSize := .ok (decompress size dst src compressedSize)
  fastUpdateError error corrected src _ := .ok (fastUpdateError size k error corrected src)

end Randomk

end DeepInc.Compressor
