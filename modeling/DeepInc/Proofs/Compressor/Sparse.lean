/-
What the pairs of a sparse compressor decompress to.

A sparse compressor sends some elements, each in a pair with its position.  Pairs written to a
buffer are read back as they were, and decompression starts from zeros and puts the elements
where their positions say.  It restores the elements that were selected if every pair holds an
element at its own position.

That is so when positions fit the index, which has as many bits as the elements.  A position
that does not fit is stored as its remainder, so that the element comes back elsewhere.  The
bytes of a partition are counted in 32 bits, and only elements of `FLOAT16`, with an index of 16
bits, can be more than their index can tell apart.

Both directions are needed.  A gradient whose only element that is not zero is the last one has
that element selected by top-k, and for random-k there is a state of the generator that draws
any given position; from there the element is lost.

Which positions are selected is no matter here.  That top-k selects the greatest elements is in
`Topk.lean`.
-/
import DeepInc.Compressor.Sparse
import Mathlib.Algebra.Order.Group.Unbundled.Abs
import Mathlib.Algebra.Order.Ring.Int
import Mathlib.Algebra.Order.Group.Defs
import Mathlib.Algebra.Order.Group.Abs

namespace DeepInc.Compressor

variable {w : ℕ} {K : Type}

/-! ### Pairs in a buffer -/

namespace Sparse

section Buffer

variable [Zero K]

/-- Writing a pair leaves the cells before it alone. -/
theorem setPair_lt (ptr : Mem (Cell w K)) (i : ℕ) (p : Pair w K) {c : ℕ} (hc : c < 2 * i) :
    setPair ptr i p c = ptr c := by
  unfold setPair
  rw [Function.update_of_ne (by omega), Function.update_of_ne (by omega)]

theorem getPair_setPair (ptr : Mem (Cell w K)) (i : ℕ) (p : Pair w K) :
    getPair (setPair ptr i p) i = p := by
  simp [getPair, setPair]

/-- Pairs written from the `n`-th place on are read back, and nothing before them changes. -/
theorem setPairs_from (ps : List (Pair w K)) (ptr : Mem (Cell w K)) (n : ℕ) :
    let ptr' := (ps.zipIdx n).foldl (fun ptr p => setPair ptr p.2 p.1) ptr
    (∀ c < 2 * n, ptr' c = ptr c) ∧ ∀ i p, ps[i]? = some p → getPair ptr' (n + i) = p := by
  induction ps generalizing ptr n with
  | nil => exact ⟨fun _ _ => rfl, fun i p h => by simp at h⟩
  | cons q ps ih =>
      obtain ⟨hbefore, hpairs⟩ := ih (setPair ptr n q) (n + 1)
      refine ⟨fun c hc => ?_, fun i p h => ?_⟩
      · exact (hbefore c (by omega)).trans (setPair_lt ptr n q hc)
      · cases i with
        | zero =>
            obtain rfl : q = p := by simpa using h
            refine Eq.trans ?_ (getPair_setPair ptr n q)
            unfold getPair
            rw [Nat.add_zero]
            exact congrArg₂ (fun a b : Cell w K => (a.asIndex, b.asScalar))
              (hbefore _ (by omega)) (hbefore _ (by omega))
        | succ i =>
            rw [show n + (i + 1) = n + 1 + i by omega]
            exact hpairs i p (by simpa using h)

/-- The pairs at the start of a buffer are the ones written there. -/
theorem getPairs_setPairs (ptr : Mem (Cell w K)) (ps : List (Pair w K)) :
    getPairs (setPairs ptr ps) ps.length = ps := by
  obtain ⟨-, hpairs⟩ := setPairs_from ps ptr 0
  refine List.ext_getElem (by simp [getPairs]) fun i h₁ h₂ => ?_
  have := hpairs i ps[i] (List.getElem?_eq_getElem h₂)
  rw [Nat.zero_add] at this
  simpa [getPairs, setPairs] using this

end Buffer

/-! ### Scattering

Two pairs may go to one position, as random-k draws positions with repetition.  What is
scattered agrees with one function all the same, so that the later one writes what the earlier
one did.
-/

/-- What is scattered agrees with `f`, so the positions it goes to hold `f`. -/
theorem foldl_update {g : Pair w K → K} {f : ℕ → K} {ps : List (Pair w K)}
    (h : ∀ p ∈ ps, g p = f p.1.toNat) (m : Mem K) (n : ℕ) :
    ps.foldl (fun m p => Function.update m p.1.toNat (g p)) m n =
      if n ∈ ps.map (fun p => p.1.toNat) then f n else m n := by
  induction ps generalizing m with
  | nil => rfl
  | cons p ps ih =>
      rw [List.foldl_cons, ih fun q hq => h q (List.mem_cons_of_mem _ hq)]
      by_cases hmem : n ∈ ps.map fun p => p.1.toNat
      · rw [if_pos hmem, if_pos (by simpa using .inr (by simpa using hmem))]
      · rw [if_neg hmem, List.map_cons]
        by_cases hn : n = p.1.toNat
        · rw [hn, Function.update_self, if_pos List.mem_cons_self]
          exact h p List.mem_cons_self
        · rw [Function.update_of_ne hn, if_neg]
          intro hc
          rcases List.mem_cons.mp hc with hc | hc
          · exact hn hc
          · exact hmem hc

/-- A position nothing is scattered to keeps what it holds. -/
theorem foldl_update_of_le {g : Pair w K → K} (ps : List (Pair w K)) (m : Mem K) {n : ℕ}
    (hn : 2 ^ w ≤ n) : ps.foldl (fun m p => Function.update m p.1.toNat (g p)) m n = m n := by
  induction ps generalizing m with
  | nil => rfl
  | cons p ps ih =>
      have hne : n ≠ p.1.toNat := by
        have := p.1.isLt
        omega
      rw [List.foldl_cons, ih, Function.update_of_ne hne]

/-! ### Elements with their positions -/

section Elements

variable {src : Mem K} {len : ℕ} {sel : List ℕ}

/-- The pairs of the given positions. -/
def pairsOf (w : ℕ) (src : Mem K) (sel : List ℕ) : List (Pair w K) :=
  sel.map fun j => (BitVec.ofNat w j, src j)

/-- Indices that fit are the positions they stand for. -/
theorem toNat_of_lt (hlen : len ≤ 2 ^ w) {j : ℕ} (hj : j < len) : (BitVec.ofNat w j).toNat = j := by
  rw [BitVec.toNat_ofNat]
  exact Nat.mod_eq_of_lt (Nat.lt_of_lt_of_le hj hlen)

theorem mem_pairsOf (hlen : len ≤ 2 ^ w) (hsel : ∀ j ∈ sel, j < len) (n : ℕ) :
    n ∈ (pairsOf w src sel).map (fun p => p.1.toNat) ↔ n ∈ sel := by
  simp only [pairsOf, List.map_map, List.mem_map, Function.comp]
  constructor
  · rintro ⟨j, hj, rfl⟩
    rwa [toNat_of_lt hlen (hsel j hj)]
  · intro hn
    exact ⟨n, hn, toNat_of_lt hlen (hsel n hn)⟩

variable [Zero K]

theorem getPairs_pairsOf (buf : Mem (Cell w K)) {k : ℕ} (hk : sel.length = k) :
    getPairs (setPairs buf (pairsOf w src sel)) k = pairsOf w src sel := by
  have hlength : (pairsOf w src sel).length = k := by simp [pairsOf, hk]
  rw [← hlength]
  exact getPairs_setPairs buf _

/-- **Decompression puts the elements back where they were, with zeros elsewhere.** -/
theorem decompress_pairsOf (hw : 8 ≤ w) (hlen : len ≤ 2 ^ w) (hsel : ∀ j ∈ sel, j < len)
    {size : ℕ} (hsize : len ≤ size / sizeofIndex w) (dst : Mem K) (buf : Mem (Cell w K)) {k : ℕ}
    (hk : sel.length = k) {n : ℕ} (hn : n < len) :
    decompress size dst (setPairs buf (pairsOf w src sel)) (k * sizeofPair w) n =
      if n ∈ sel then src n else 0 := by
  have hpair : 0 < sizeofPair w := by
    unfold sizeofPair sizeofIndex
    omega
  unfold decompress
  rw [Nat.mul_div_cancel _ hpair, getPairs_pairsOf buf hk, foldl_update (g := fun p => p.2) (f := src)]
  · simp only [mem_pairsOf hlen hsel]
    split
    · rfl
    · exact if_pos (Nat.lt_of_lt_of_le hn hsize)
  · intro p hp
    obtain ⟨j, hj, rfl⟩ := List.mem_map.mp hp
    rw [toNat_of_lt hlen (hsel j hj)]

/-- The fused update clears the positions that were sent. -/
theorem fastUpdateError_pairsOf (hlen : len ≤ 2 ^ w) (hsel : ∀ j ∈ sel, j < len) {size : ℕ}
    (hsize : len ≤ size / sizeofIndex w) (error corrected : Mem K) (buf : Mem (Cell w K)) {k : ℕ}
    (hk : sel.length = k) {n : ℕ} (hn : n < len) :
    fastUpdateError size k error corrected (setPairs buf (pairsOf w src sel)) n =
      if n ∈ sel then 0 else corrected n := by
  unfold fastUpdateError
  rw [getPairs_pairsOf buf hk, foldl_update (g := fun _ => 0) (f := fun _ => 0) fun _ _ => rfl]
  simp only [mem_pairsOf hlen hsel]
  split
  · rfl
  · exact if_pos (Nat.lt_of_lt_of_le hn hsize)

end Elements

end Sparse

open Sparse

/-! ### The positions of the greatest elements

The heap is in the buffer that is sent, and holds pairs with indices of few bits.  It compares
elements only, so that the heap of positions and the heap of indices go through the same steps,
and the pairs sent are those of positions.
-/

namespace Topk

variable [AddGroup K] [LinearOrder K] {ι : Type} {mk : ℕ → ι} {k : ℕ} {src : Mem K}

/-- What the heap holds after some elements: at most `k` of them, with their indices. -/
structure Holds (mk : ℕ → ι) (k : ℕ) (src : Mem K) (i : ℕ) (heap : List (ι × K)) : Prop where
  length : heap.length = min i k
  elements : ∀ p ∈ heap, ∃ j < i, p = (mk j, src j)

theorem Holds.offer {i : ℕ} {heap : List (ι × K)} (h : Holds mk k src i heap) :
    Holds mk k src (i + 1) (offer mk k src heap i) := by
  have hold : ∀ p ∈ heap, ∃ j < i + 1, p = (mk j, src j) := by
    intro p hp
    obtain ⟨j, hj, rfl⟩ := h.elements p hp
    exact ⟨j, by omega, rfl⟩
  have hnew : ∀ l : List (ι × K), (∀ p ∈ l, p ∈ heap) →
      ∀ p ∈ ListHeap.pushHeap comp (l ++ [(mk i, src i)]), ∃ j < i + 1, p = (mk j, src j) := by
    intro l hl p hp
    rw [(ListHeap.pushHeap_perm _ _).mem_iff] at hp
    rcases List.mem_append.mp hp with hp | hp
    · exact hold p (hl p hp)
    · exact ⟨i, by omega, List.mem_singleton.mp hp⟩
  have hlength := h.length
  unfold Topk.offer
  by_cases hi : i < k
  · rw [if_pos hi]
    refine ⟨?_, hnew heap fun _ hp => hp⟩
    rw [(ListHeap.pushHeap_perm _ _).length_eq, List.length_append, List.length_singleton]
    omega
  · rw [if_neg hi]
    cases heap with
    | nil =>
        refine ⟨?_, hold⟩
        simp only [List.length_nil] at hlength ⊢
        omega
    | cons top rest =>
        simp only
        split
        · obtain ⟨l, hpop, hperm⟩ := ListHeap.popHeap_cons comp top rest
          rw [hpop, List.dropLast_concat]
          refine ⟨?_, hnew l fun p hp => List.mem_cons_of_mem _ (hperm.mem_iff.mp hp)⟩
          rw [(ListHeap.pushHeap_perm _ _).length_eq, List.length_append, List.length_singleton,
            hperm.length_eq]
          simp only [List.length_cons] at hlength
          omega
        · refine ⟨?_, hold⟩
          rw [hlength]
          omega

theorem heap_succ (len : ℕ) :
    heap mk k src (len + 1) = offer mk k src (heap mk k src len) len := by
  simp [heap, List.range_succ]

theorem holds_heap (mk : ℕ → ι) (k : ℕ) (src : Mem K) (len : ℕ) :
    Holds mk k src len (heap mk k src len) := by
  induction len with
  | zero => exact ⟨by simp [heap], by simp [heap]⟩
  | succ len ih =>
      rw [heap_succ]
      exact ih.offer

/-- The heap does not look at the indices. -/
theorem heap_map {ι' : Type} (f : ι → ι') (mk : ℕ → ι) (k : ℕ) (src : Mem K) (len : ℕ) :
    heap (fun i => f (mk i)) k src len = (heap mk k src len).map (Prod.map f id) := by
  induction len with
  | zero => rfl
  | succ len ih =>
      have hcomp : ∀ a b : ι × K, comp (Prod.map f id a) (Prod.map f id b) = comp a b :=
        fun _ _ => rfl
      have hpush : ∀ l : List (ι × K), ListHeap.pushHeap comp
          (l.map (Prod.map f id) ++ [(f (mk len), src len)]) =
          (ListHeap.pushHeap comp (l ++ [(mk len, src len)])).map (Prod.map f id) := by
        intro l
        rw [← ListHeap.pushHeap_map hcomp, List.map_append]
        rfl
      rw [heap_succ, heap_succ, ih]
      unfold offer
      split
      · exact hpush _
      · cases heap mk k src len with
        | nil => rfl
        | cons top rest =>
            have hpop := ListHeap.popHeap_map hcomp (top :: rest)
            simp only [List.map_cons, Prod.map_snd, id] at hpop ⊢
            split
            · rw [hpop, ← List.map_dropLast, hpush]
            · rfl

/-- The pairs sent are the elements of the selected positions. -/
theorem heap_eq_pairsOf (w k : ℕ) (src : Mem K) (len : ℕ) :
    heap (BitVec.ofNat w) k src len = pairsOf w src (selected k src len) := by
  have hmap := heap_map (BitVec.ofNat w) id k src len
  have hheap := (holds_heap id k src len).elements
  refine hmap.trans ?_
  rw [pairsOf, selected, List.map_map]
  refine List.map_congr_left fun p hp => ?_
  obtain ⟨j, -, rfl⟩ := hheap p hp
  rfl

theorem selected_lt (k : ℕ) (src : Mem K) (len : ℕ) : ∀ j ∈ selected k src len, j < len := by
  intro j hj
  obtain ⟨p, hp, rfl⟩ := List.mem_map.mp hj
  obtain ⟨j, hlt, rfl⟩ := (holds_heap id k src len).elements p hp
  exact hlt

theorem length_selected {len : ℕ} (hk : k ≤ len / 2) (src : Mem K) :
    (selected k src len).length = k := by
  rw [selected, List.length_map, (holds_heap id k src len).length]
  omega

/-- What `CompressImpl` returns, for a `k` its check lets pass. -/
theorem compress_eq {len : ℕ} (hk : k ≤ len / 2) (dst : Mem (Cell w K)) (src : Mem K) :
    compress k dst src len =
      .ok (setPairs dst (pairsOf w src (selected k src len)), k * sizeofPair w) := by
  unfold compress
  rw [if_pos hk, heap_eq_pairsOf]

end Topk

/-! ### Random positions -/

namespace Randomk

variable [Zero K]

theorem selected_lt {len : ℕ} (hlen : 0 < len) (k : ℕ) (rng : Rng) :
    ∀ j ∈ (selected len k rng).1, j < len := by
  induction k generalizing rng with
  | zero => intro j hj; cases hj
  | succ k ih =>
      intro j hj
      rcases List.mem_cons.mp hj with rfl | hj
      · exact Nat.mod_lt _ hlen
      · exact ih _ j hj

theorem length_selected (len k : ℕ) (rng : Rng) : (selected len k rng).1.length = k := by
  induction k generalizing rng with
  | zero => rfl
  | succ k ih =>
      rw [selected, List.length_cons, ih]

/-- What `CompressImpl` returns, for a `k` its check lets pass. -/
theorem compress_eq {k len : ℕ} (hk : k ≤ len / 2) (rng : Rng) (dst : Mem (Cell w K))
    (src : Mem K) : compress k rng dst src len = .ok ((selected len k rng).2,
      setPairs dst (pairsOf w src (selected len k rng).1), k * sizeofPair w) := by
  unfold compress
  rw [if_pos hk]
  rfl

end Randomk

/-! ### The round trip

`Restores` says of given positions what decompression leaves, and the two compressors are asked
for it for every gradient.  The positions of a partition fit if and only if it has no more than
`2 ^ w` elements.
-/

/-- What is decompressed: the source at the given positions, and zero elsewhere. -/
def Sparse.Restores [Zero K] (dst src : Mem K) (len : ℕ) (sel : List ℕ) : Prop :=
  ∀ n < len, dst n = if n ∈ sel then src n else 0

/-- Every gradient of `len` elements survives being sent by `TopkCompressor`. -/
def Topk.RoundTrips (w : ℕ) (K : Type) [AddGroup K] [LinearOrder K] (size k len : ℕ) : Prop :=
  ∀ (src dst : Mem K) (buf : Mem (Cell w K)), ∃ data compressedSize,
    Topk.compress k buf src len = .ok (data, compressedSize) ∧
      Restores (decompress size dst data compressedSize) src len (Topk.selected k src len)

/-- The same for `RandomkCompressor`, whatever its generator draws. -/
def Randomk.RoundTrips (w : ℕ) (K : Type) [Zero K] (size k len : ℕ) : Prop :=
  ∀ (rng : Rng) (src dst : Mem K) (buf : Mem (Cell w K)), ∃ rng' data compressedSize,
    Randomk.compress k rng buf src len = .ok (rng', data, compressedSize) ∧
      Restores (decompress size dst data compressedSize) src len (Randomk.selected len k rng).1

/-- An element that is sent under an index that does not fit is lost. -/
theorem Sparse.not_restores [Zero K] {size len n : ℕ} (hn : n < len) (hw : 2 ^ w ≤ n)
    (hsize : len ≤ size / sizeofIndex w) {src : Mem K} (hsrc : src n ≠ 0) {sel : List ℕ}
    (hsel : n ∈ sel) (dst : Mem K) (data : Mem (Cell w K)) (compressedSize : ℕ) :
    ¬Restores (decompress size dst data compressedSize) src len sel := by
  intro h
  have hlost : decompress size dst data compressedSize n = 0 := by
    unfold decompress
    rw [foldl_update_of_le _ _ hw]
    exact if_pos (Nat.lt_of_lt_of_le hn hsize)
  have := h n hn
  rw [if_pos hsel, hlost] at this
  exact hsrc this.symm

namespace Topk

variable [AddCommGroup K] [LinearOrder K]

theorem roundTrips (hw : 8 ≤ w) {size k len : ℕ} (hk : k ≤ len / 2) (hlen : len ≤ 2 ^ w)
    (hsize : len ≤ size / sizeofIndex w) : RoundTrips w K size k len := by
  intro src dst buf
  refine ⟨_, _, compress_eq hk buf src, fun n hn => ?_⟩
  exact decompress_pairsOf hw hlen (selected_lt k src len) hsize dst buf (length_selected hk src) hn

variable [IsOrderedAddMonoid K]

/-- The only element that is not zero is among the greatest ones. -/
theorem last_selected {k n : ℕ} (hk : 1 ≤ k) (hkn : k ≤ n) {src : Mem K}
    (hzero : ∀ j < n, src j = 0) (hsrc : src n ≠ 0) : n ∈ selected k src (n + 1) := by
  have hholds := holds_heap id k src n
  have hlength := hholds.length
  have hmem : (n, src n) ∈ heap id k src (n + 1) := by
    rw [heap_succ]
    unfold offer
    rw [if_neg (by omega)]
    cases hheap : heap id k src n with
    | nil =>
        rw [hheap, List.length_nil] at hlength
        omega
    | cons top rest =>
        obtain ⟨j, hj, rfl⟩ := hholds.elements top (by simp [hheap])
        have hlt : |(id j, src j).2| < |src n| := by
          rw [hzero j hj, abs_zero]
          exact abs_pos.mpr hsrc
        simp only [if_pos hlt]
        rw [(ListHeap.pushHeap_perm _ _).mem_iff]
        simp
  exact List.mem_map.mpr ⟨_, hmem, rfl⟩

/-- One element that is not zero, at a position that does not fit an index. -/
theorem not_roundTrips [Nontrivial K] {size k len : ℕ} (hk₁ : 1 ≤ k) (hk : k ≤ len / 2)
    (hlen : 2 ^ w < len) (hsize : len ≤ size / sizeofIndex w) : ¬RoundTrips w K size k len := by
  intro h
  obtain ⟨x, hx⟩ := exists_ne (0 : K)
  obtain ⟨n, rfl⟩ : ∃ n, len = n + 1 := ⟨len - 1, by omega⟩
  obtain ⟨data, compressedSize, -, hrestores⟩ :=
    h (fun j => if j = n then x else 0) (fun _ => 0) (fun _ => 0)
  refine not_restores (Nat.lt_succ_self n) (by omega) hsize (by simpa using hx) ?_ _ _ _ hrestores
  exact last_selected hk₁ (by omega) (fun j hj => if_neg (by omega)) (by simpa using hx)

end Topk

namespace Randomk

variable [Zero K]

theorem roundTrips (hw : 8 ≤ w) {size k len : ℕ} (hk₁ : 1 ≤ k) (hk : k ≤ len / 2)
    (hlen : len ≤ 2 ^ w) (hsize : len ≤ size / sizeofIndex w) : RoundTrips w K size k len := by
  intro rng src dst buf
  have hpos : 0 < len / 2 := Nat.lt_of_lt_of_le hk₁ hk
  refine ⟨_, _, _, compress_eq hk rng buf src, fun n hn => ?_⟩
  exact decompress_pairsOf hw hlen (selected_lt (by omega) k rng) hsize dst buf
    (length_selected len k rng) hn

/-- A state of the generator whose next number is `2 ^ 16`. -/
def draws65536 : Rng := { a := 0, b := 32768 }

theorem not_roundTrips [Nontrivial K] {size k len : ℕ} (hk : 1 ≤ k) (hlen : 2 ^ 16 < len)
    (hsize : len ≤ size / sizeofIndex 16) : ¬RoundTrips 16 K size k len := by
  intro h
  obtain ⟨x, hx⟩ := exists_ne (0 : K)
  obtain ⟨k, rfl⟩ := Nat.exists_eq_add_of_le' hk
  obtain ⟨rng', data, compressedSize, -, hrestores⟩ :=
    h draws65536 (fun j => if j = 65536 then x else 0) (fun _ => 0) (fun _ => 0)
  refine not_restores hlen (by decide) hsize (by simpa using hx) ?_ _ _ _ hrestores
  refine List.mem_cons.mpr (.inl ?_)
  have hdraw : draws65536.xorshift128p.1.toNat = 65536 := by decide
  show 65536 = draws65536.xorshift128p.1.toNat % len
  rw [hdraw]
  exact (Nat.mod_eq_of_lt hlen).symm

end Randomk

/-- A partition fits in the buffers its compressor is made with. -/
theorem le_align (len : ℕ) (dtype : DataType) :
    len ≤ align (len * getDataTypeLength dtype) dtype / sizeofIndex (scalarBits dtype) := by
  have hsize : sizeofIndex (scalarBits dtype) = getDataTypeLength dtype :=
    Nat.mul_div_cancel_left _ (by decide)
  rw [hsize, Nat.le_div_iff_mul_le (getDataTypeLength_pos dtype)]
  exact Nat.le_add_right _ _

/--
**The sparse compressors restore what they select, as long as positions fit an index.** For
partitions below `2 ^ 32` bytes only `FLOAT16` can have too many elements.

Both compressors are asked for every gradient, and random-k for every state of its generator as
well.
-/
theorem sparse_roundTrips_iff {K : Type} [AddCommGroup K] [LinearOrder K] [IsOrderedAddMonoid K]
    [Nontrivial K] (dtype : DataType) (hdtype : Compressible dtype) {k len : ℕ} (hk₁ : 1 ≤ k)
    (hk : k ≤ len / 2) (hlen : len * getDataTypeLength dtype < 2 ^ 32) :
    (Topk.RoundTrips (scalarBits dtype) K (align (len * getDataTypeLength dtype) dtype) k len ↔
      (dtype = .float16 → len ≤ 2 ^ 16)) ∧
    (Randomk.RoundTrips (scalarBits dtype) K (align (len * getDataTypeLength dtype) dtype) k len ↔
      (dtype = .float16 → len ≤ 2 ^ 16)) := by
  have hsize := le_align len dtype
  have hfits : (dtype = .float16 → len ≤ 2 ^ 16) → len ≤ 2 ^ scalarBits dtype := by
    intro h
    cases dtype with
    | float16 => exact h rfl
    | float32 => exact Nat.le_of_lt (Nat.lt_of_le_of_lt (Nat.le_mul_of_pos_right _ (by decide)) hlen)
    | float64 =>
        have : len < 2 ^ 32 := Nat.lt_of_le_of_lt (Nat.le_mul_of_pos_right _ (by decide)) hlen
        exact Nat.le_of_lt (Nat.lt_trans this (by decide))
    | _ => exact hdtype.elim
  have hbits : 8 ≤ scalarBits dtype :=
    Nat.le_mul_of_pos_right 8 (getDataTypeLength_pos dtype)
  refine ⟨⟨fun h hfloat => ?_, fun h => Topk.roundTrips hbits hk (hfits h) hsize⟩,
    ⟨fun h hfloat => ?_, fun h => Randomk.roundTrips hbits hk₁ hk (hfits h) hsize⟩⟩
  · subst hfloat
    by_contra hlong
    exact Topk.not_roundTrips hk₁ hk (Nat.lt_of_not_le hlong) hsize h
  · subst hfloat
    by_contra hlong
    exact Randomk.not_roundTrips hk₁ (Nat.lt_of_not_le hlong) hsize h

/-- Four elements, two of which are sent. -/
theorem sparse_roundTrips_four : Topk.RoundTrips 16 ℤ (align 8 .float16) 2 4 :=
  (sparse_roundTrips_iff .float16 trivial (by decide) (by decide) (by decide)).1.mpr
    fun _ => by decide

/-- A partition of one element more than 16 bits can index. -/
theorem last_half_lost : ¬∀ (dtype : DataType) (k len : ℕ), Compressible dtype → 1 ≤ k →
    k ≤ len / 2 → len * getDataTypeLength dtype < 2 ^ 32 →
      Topk.RoundTrips (scalarBits dtype) ℤ (align (len * getDataTypeLength dtype) dtype) k len := by
  intro h
  exact Topk.not_roundTrips (w := 16) (K := ℤ) (by decide) (by decide) (by decide)
    (le_align 65537 .float16) (h .float16 1 65537 trivial (by decide) (by decide) (by decide))

end DeepInc.Compressor
