/-
The kernels stay in the aligned partition.

A compressor is made for the bytes of a partition, aligned, and gets buffers of that size.  Its
kernels take nothing but addresses, so that nothing but their loops keeps them in the buffers.
`Footprint` lists every load and every store of these loops, with the bytes they touch; here it
is shown that all of them end by the aligned size.

Onebit packs whole words.  The packing loop reads to the end of the last word, beyond the
elements of the partition, and decompression writes that far.  A word stands for as many
elements as it has bits, so that the words of a partition of whole elements are just the
partition, aligned.

The sparse compressors clear and copy the aligned partition.  A pair takes twice the bytes of an
element, and the check on `k` leaves no more pairs than half the elements.  They store elements
at positions they find in a message, which are those of elements.

Dithering is not covered here.  Whether its stores stay in the buffer depends on how many bits
it puts, which is in `StreamSize.lean`.
-/
import DeepInc.Compressor.Footprint
import DeepInc.Proofs.Compressor.Onebit
import DeepInc.Proofs.Compressor.Sparse

namespace DeepInc.Compressor

open Tiling

/-- Every access ends by byte `n`. -/
def StaysBelow (n : ℕ) (as : List Access) : Prop := ∀ a ∈ as, a.bytes.stop ≤ n

section StaysBelow

variable {n : ℕ} {as bs : List Access}

@[simp] theorem staysBelow_nil : StaysBelow n [] := fun _ h => by cases h

@[simp] theorem staysBelow_cons {a : Access} :
    StaysBelow n (a :: as) ↔ a.bytes.stop ≤ n ∧ StaysBelow n as := by
  simp [StaysBelow]

@[simp] theorem staysBelow_append :
    StaysBelow n (as ++ bs) ↔ StaysBelow n as ∧ StaysBelow n bs := by
  simp [StaysBelow, or_imp, forall_and]

theorem staysBelow_flatMap {ι : Type} {l : List ι} {f : ι → List Access} :
    StaysBelow n (l.flatMap f) ↔ ∀ i ∈ l, StaysBelow n (f i) := by
  unfold StaysBelow
  constructor
  · exact fun h i hi a ha => h a (List.mem_flatMap.mpr ⟨i, hi, ha⟩)
  · intro h a ha
    obtain ⟨i, hi, ha⟩ := List.mem_flatMap.mp ha
    exact h i hi a ha

theorem staysBelow_map {ι : Type} {l : List ι} {f : ι → Access} :
    StaysBelow n (l.map f) ↔ ∀ i ∈ l, (f i).bytes.stop ≤ n := by
  unfold StaysBelow
  constructor
  · exact fun h i hi => h _ (List.mem_map_of_mem hi)
  · intro h a ha
    obtain ⟨i, hi, rfl⟩ := List.mem_map.mp ha
    exact h i hi

@[simp] theorem stop_load (b : Buffer) (start len : ℕ) :
    (Access.load b start len).bytes.stop = start + len := rfl

@[simp] theorem stop_store (b : Buffer) (start len : ℕ) :
    (Access.store b start len).bytes.stop = start + len := rfl

end StaysBelow

/-! ### Onebit

A word of `w` bits stands for `w` elements of the same size.  The four bytes of the scale come
behind the words, and with 16 bits or more one word and the scale take less than the elements of
the word.
-/

namespace Onebit

/-- An element of a word. -/
theorem element_stop {w s c i j : ℕ} (hi : i < c) (hj : j < w) : (i * w + j) * s + s ≤ c * w * s := by
  have hlt : i * w + j + 1 ≤ c * w := by
    have := Nat.mul_le_mul_right w (Nat.succ_le_of_lt hi)
    rw [Nat.succ_mul] at this
    omega
  have := Nat.mul_le_mul_right s hlt
  rwa [Nat.add_mul, Nat.one_mul] at this

section Bounds

variable {w len n : ℕ}

/-- Words and a scale take less than the elements. -/
theorem words_le (hw : 16 ≤ w) {c : ℕ} (hc : 0 < c) :
    c * sizeofIndex w + sizeofFloat ≤ c * w * sizeofIndex w := by
  have hs : 2 ≤ sizeofIndex w := (Nat.le_div_iff_mul_le (by decide)).mpr (by omega)
  unfold sizeofFloat
  calc c * sizeofIndex w + 4
      ≤ c * sizeofIndex w + c * sizeofIndex w * 2 := by
        have := Nat.mul_le_mul hc hs
        omega
    _ = c * 3 * sizeofIndex w := by ring
    _ ≤ c * w * sizeofIndex w :=
        Nat.mul_le_mul_right _ (Nat.mul_le_mul_left c (by omega))

theorem word_stop (hw : 16 ≤ w) {c i : ℕ} (hi : i < c) :
    i * sizeofIndex w + sizeofIndex w ≤ c * w * sizeofIndex w := by
  have hle := words_le hw (Nat.zero_lt_of_lt hi)
  have := Nat.mul_le_mul_right (sizeofIndex w) (Nat.succ_le_of_lt hi)
  rw [Nat.succ_mul] at this
  omega

theorem compressAccesses_staysBelow (hw : 16 ≤ w) (useScale : Bool) (hlen : 0 < len) :
    StaysBelow (chunkLen w len * w * sizeofIndex w) (compressAccesses w useScale len) := by
  have hle := le_chunkLen (show 0 < w by omega) len
  have hc : 0 < chunkLen w len := by
    by_contra h0
    rw [Nat.eq_zero_of_not_pos h0] at hle
    omega
  unfold compressAccesses
  simp only [staysBelow_append, staysBelow_cons, staysBelow_nil, and_true, stop_store]
  refine ⟨⟨?_, ?_⟩, words_le hw hc⟩
  · cases useScale with
    | false => exact staysBelow_nil
    | true =>
        refine staysBelow_map.mpr fun i hi => ?_
        have hi := List.mem_range.mp hi
        have := Nat.mul_le_mul_right (sizeofIndex w) (Nat.le_trans (Nat.succ_le_of_lt hi) hle)
        rwa [Nat.succ_mul] at this
  · refine staysBelow_flatMap.mpr fun i hi => ?_
    have hi := List.mem_range.mp hi
    simp only [staysBelow_append, staysBelow_cons, staysBelow_nil, and_true, stop_store]
    exact ⟨staysBelow_map.mpr fun j hj => element_stop hi (List.mem_range.mp hj), word_stop hw hi⟩

theorem decompressAccesses_staysBelow (hw : 16 ≤ w) {c : ℕ} (hc : 0 < c) :
    StaysBelow (c * w * sizeofIndex w)
      (decompressAccesses w (c * sizeofIndex w + sizeofFloat)) := by
  unfold decompressAccesses
  simp only [chunks_mul_add (show 8 ≤ w by omega), staysBelow_append, staysBelow_cons,
    staysBelow_nil, and_true, stop_load, stop_store, Nat.zero_add]
  refine ⟨⟨words_le hw hc, words_le hw hc, words_le hw hc⟩, staysBelow_flatMap.mpr fun i hi => ?_⟩
  have hi := List.mem_range.mp hi
  exact staysBelow_cons.mpr ⟨word_stop hw hi,
    staysBelow_map.mpr fun j hj => element_stop hi (List.mem_range.mp hj)⟩

theorem fastUpdateErrorAccesses_staysBelow (hw : 16 ≤ w) {c : ℕ} (hc : 0 < c) :
    StaysBelow (c * w * sizeofIndex w)
      (fastUpdateErrorAccesses w (c * sizeofIndex w + sizeofFloat)) := by
  unfold fastUpdateErrorAccesses
  simp only [chunks_mul_add (show 8 ≤ w by omega), staysBelow_cons, stop_load]
  refine ⟨words_le hw hc, staysBelow_flatMap.mpr fun i hi => ?_⟩
  have hi := List.mem_range.mp hi
  refine staysBelow_cons.mpr ⟨word_stop hw hi, staysBelow_flatMap.mpr fun j hj => ?_⟩
  have hstop := element_stop (s := sizeofIndex w) hi (List.mem_range.mp hj)
  simp only [staysBelow_cons, staysBelow_nil, and_true, stop_load, stop_store]
  exact ⟨hstop, hstop⟩

end Bounds

end Onebit

/-! ### Top-k and random-k

Both write pairs from the start of the buffer; top-k reads and writes them many times, since the
heap is in the buffer.  Whatever a heap function touches are pairs below `k`.
-/

section Sparse

open Sparse

variable {w : ℕ} {K : Type} {k len n : ℕ}

theorem pair_stop (hk : k ≤ len / 2) {i : ℕ} (hi : i < k) :
    i * sizeofPair w + sizeofPair w ≤ len * sizeofIndex w := by
  unfold sizeofPair
  calc i * (2 * sizeofIndex w) + 2 * sizeofIndex w
      = (i + 1) * 2 * sizeofIndex w := by ring
    _ ≤ len * sizeofIndex w := Nat.mul_le_mul_right _ (by omega)

theorem pairs_le (hk : k ≤ len / 2) : k * sizeofPair w ≤ len * sizeofIndex w := by
  unfold sizeofPair
  calc k * (2 * sizeofIndex w)
      = k * 2 * sizeofIndex w := by ring
    _ ≤ len * sizeofIndex w := Nat.mul_le_mul_right _ (by omega)

theorem index_stop {j : ℕ} (hj : j < len) :
    j * sizeofIndex w + sizeofIndex w ≤ len * sizeofIndex w := by
  have := Nat.mul_le_mul_right (sizeofIndex w) (Nat.succ_le_of_lt hj)
  rwa [Nat.succ_mul] at this

theorem Topk.compressAccesses_staysBelow (hk₁ : 1 ≤ k) (hk : k ≤ len / 2)
    (hn : len * sizeofIndex w ≤ n) : StaysBelow n (Topk.compressAccesses w k len) := by
  refine staysBelow_flatMap.mpr fun i hi => ?_
  have helement := index_stop (w := w) (List.mem_range.mp hi)
  by_cases hik : i < k
  · have hpair := pair_stop (w := w) hk hik
    have hheap : (i + 1) * sizeofPair w ≤ n := by
      rw [Nat.add_mul, Nat.one_mul]
      omega
    rw [if_pos hik]
    simp only [staysBelow_cons, staysBelow_nil, and_true, stop_load, stop_store, Nat.zero_add]
    exact ⟨by omega, by omega, hheap, hheap⟩
  · have hpairs := pairs_le (w := w) hk
    have hfirst := pair_stop (w := w) hk hk₁
    rw [if_neg hik]
    simp only [staysBelow_cons, staysBelow_nil, and_true, stop_load, stop_store, Nat.zero_add]
    exact ⟨by omega, by omega, by omega, by omega⟩

variable [Zero K]

theorem Randomk.compressAccesses_staysBelow (rng : Rng) (hk₁ : 1 ≤ k) (hk : k ≤ len / 2)
    (hn : len * sizeofIndex w ≤ n) : StaysBelow n (Randomk.compressAccesses w k rng len) := by
  refine staysBelow_flatMap.mpr fun p hp => ?_
  obtain ⟨j, i⟩ := p
  have hj : j < len := Randomk.selected_lt (by omega) k rng j (List.fst_mem_of_mem_zipIdx hp)
  have hi : i < k := by
    have := List.snd_lt_of_mem_zipIdx hp
    rw [Randomk.length_selected] at this
    omega
  have helement := index_stop (w := w) hj
  have hpair := pair_stop (w := w) hk hi
  simp only [staysBelow_cons, staysBelow_nil, and_true, stop_load, stop_store]
  exact ⟨by omega, by omega⟩

/-- The indices that are sent are positions of elements. -/
theorem index_lt (src : Mem K) {sel : List ℕ} (hsel : ∀ j ∈ sel, j < len) (hk : sel.length = k)
    (buf : Mem (Cell w K)) {i : ℕ} (hi : i < k) :
    (getPair (setPairs buf (pairsOf w src sel)) i).1.toNat < len := by
  have hmem : getPair (setPairs buf (pairsOf w src sel)) i ∈
      getPairs (setPairs buf (pairsOf w src sel)) k :=
    List.mem_map_of_mem (List.mem_range.mpr hi)
  rw [getPairs_pairsOf buf hk] at hmem
  obtain ⟨j, hj, heq⟩ := List.mem_map.mp hmem
  rw [← heq, BitVec.toNat_ofNat]
  exact Nat.lt_of_le_of_lt (Nat.mod_le _ _) (hsel j hj)

/-- Decompression and the update of the error, of a message with the given positions. -/
theorem sparseAccesses_staysBelow (hw : 8 ≤ w) (src : Mem K) {sel : List ℕ}
    (hsel : ∀ j ∈ sel, j < len) (hlength : sel.length = k) (hk : k ≤ len / 2) {size : ℕ}
    (hsize : size ≤ n) (hn : len * sizeofIndex w ≤ n) (buf : Mem (Cell w K)) :
    StaysBelow n (sparseAccesses size k (setPairs buf (pairsOf w src sel), k * sizeofPair w)) := by
  have hpairsize : 0 < sizeofPair w := by
    unfold sizeofPair sizeofIndex
    omega
  have hpairs := pairs_le (w := w) hk
  have hitem : ∀ i < k, i * sizeofPair w + sizeofPair w ≤ n ∧
      (getPair (setPairs buf (pairsOf w src sel)) i).1.toNat * sizeofIndex w + sizeofIndex w ≤ n := by
    intro i hi
    have hpair := pair_stop (w := w) hk hi
    have hindex := index_stop (w := w) (index_lt src hsel hlength buf hi)
    exact ⟨by omega, by omega⟩
  unfold sparseAccesses decompressAccesses fastUpdateErrorAccesses
  simp only [Nat.mul_div_cancel _ hpairsize, staysBelow_append, staysBelow_cons, staysBelow_nil,
    and_true, stop_load, stop_store, Nat.zero_add]
  refine ⟨⟨⟨by omega, by omega, hsize⟩, ?_⟩, ⟨hsize, hsize⟩, ?_⟩
  · refine staysBelow_flatMap.mpr fun i hi => ?_
    simpa using hitem i (List.mem_range.mp hi)
  · refine staysBelow_flatMap.mpr fun i hi => ?_
    simpa using hitem i (List.mem_range.mp hi)

end Sparse

/-! ### All kernels -/

theorem one_le_factorK {factor : ℚ} (size : ℕ) (dtype : DataType) : 1 ≤ factorK factor size dtype := by
  unfold factorK
  split
  · simp only
    split <;> omega
  · rename_i hfactor
    exact Nat.one_le_iff_ne_zero.mpr (Nat.ne_of_gt (Nat.floor_pos.mpr (not_lt.mp hfactor)))

/-- The words of a partition of whole elements are the partition, aligned. -/
theorem chunkLen_mul_eq_align {dtype : DataType} (hdtype : Compressible dtype) (len : ℕ) :
    Onebit.chunkLen (scalarBits dtype) len * scalarBits dtype * sizeofIndex (scalarBits dtype) =
      align (len * getDataTypeLength dtype) dtype := by
  unfold Onebit.chunkLen align sizeofIndex
  cases dtype with
  | float16 | float32 | float64 =>
      simp only [scalarBits, getDataTypeLength]
      omega
  | _ => exact hdtype.elim

/--
**The kernels stay in the aligned partition.**

The accesses are those of compression, of the decompression of what was compressed, and of the
fused update, with the compressor as the registry makes it for the aligned partition.
-/
theorem accesses_staysBelow {K : Type} [Field K] [LinearOrder K] {dtype : DataType}
    (hdtype : Compressible dtype) {len : ℕ} (hlen : 0 < len) (kwargs : Kwargs) (rng : Rng)
    (buf : Mem (Cell (scalarBits dtype) K)) (src : Mem K) :
    StaysBelow (align (len * getDataTypeLength dtype) dtype)
      (accesses kwargs dtype (align (len * getDataTypeLength dtype) dtype) len rng buf src) := by
  have hw : 16 ≤ scalarBits dtype := by
    cases dtype with
    | float16 | float32 | float64 => decide
    | _ => exact hdtype.elim
  have hn : len * sizeofIndex (scalarBits dtype) ≤ align (len * getDataTypeLength dtype) dtype := by
    rw [sizeofIndex_scalarBits]
    exact Nat.le_add_right _ _
  unfold accesses
  cases kwargs.compressorType with
  | onebit =>
      have hc : 0 < Onebit.chunkLen (scalarBits dtype) len := by
        have := Onebit.le_chunkLen (show 0 < scalarBits dtype by omega) len
        by_contra h0
        rw [Nat.eq_zero_of_not_pos h0] at this
        omega
      simp only [staysBelow_append]
      rw [← chunkLen_mul_eq_align hdtype len]
      exact ⟨⟨Onebit.compressAccesses_staysBelow hw _ hlen,
        Onebit.decompressAccesses_staysBelow hw hc⟩, Onebit.fastUpdateErrorAccesses_staysBelow hw hc⟩
  | topk =>
      by_cases hk : factorK kwargs.compressorK (align (len * getDataTypeLength dtype) dtype) dtype ≤ len / 2
      · simp only [Topk.compress_eq hk, staysBelow_append]
        exact ⟨Topk.compressAccesses_staysBelow (one_le_factorK _ _) hk hn,
          sparseAccesses_staysBelow (by omega) src (Topk.selected_lt _ src len)
            (Topk.length_selected hk src) hk le_rfl hn buf⟩
      · simp only [Topk.compress, if_neg hk]
        exact staysBelow_nil
  | randomk =>
      by_cases hk : factorK kwargs.compressorK (align (len * getDataTypeLength dtype) dtype) dtype ≤ len / 2
      · simp only [Randomk.compress_eq hk, staysBelow_append]
        exact ⟨Randomk.compressAccesses_staysBelow rng (one_le_factorK _ _) hk hn,
          sparseAccesses_staysBelow (by omega) src (Randomk.selected_lt hlen _ rng)
            (Randomk.length_selected len _ rng) hk le_rfl hn buf⟩
      · simp only [Randomk.compress, if_neg hk]
        exact staysBelow_nil

end DeepInc.Compressor
