/-
The kernels leave the other partitions alone.

All partitions of a tensor are in one shared buffer, and each is compressed and decompressed on
its own, by threads that do not wait for each other.  A kernel goes beyond the end of its
partition, up to the end of the aligned one.

The bound is a whole number of pages, so that all partitions but the last are whole pages and
end where they end when they are aligned.  Only the last one is not aligned, and behind it is no
other; what it is aligned to is what the shared buffer of the tensor is aligned to.

So what the kernels read and write of a partition is in the aligned partition, that is in the
buffer, and the aligned partitions do not meet.
-/
import DeepInc.Proofs.Compressor.Footprint
import DeepInc.Proofs.Worker.Partition
import DeepInc.Proofs.Worker.Compress

namespace DeepInc.Worker

open Compressor Tiling

/-! ### Alignment

`Align` rounds up to whole packed words.  Pages are multiples of 512 bytes, and so whole packed
words for every data type; hence rounding up what is behind some pages is rounding up the whole.
-/

section Alignment

variable {dtype : DataType}

/-- What is packed into whole words is aligned, and what is behind it can be aligned alone. -/
theorem align_add {m : ℕ} (hm : 512 ∣ m) (hdtype : Compressible dtype) (n : ℕ) :
    align (m + n) dtype = m + align n dtype := by
  obtain ⟨c, rfl⟩ := hm
  unfold align
  cases dtype with
  | float16 | float32 | float64 =>
      simp only [getDataTypeLength]
      omega
  | _ => exact hdtype.elim

theorem align_of_dvd {m : ℕ} (hm : 512 ∣ m) (hdtype : Compressible dtype) : align m dtype = m := by
  have hzero : align 0 dtype = 0 := by
    unfold align
    simp
  have := align_add hm hdtype 0
  rwa [Nat.add_zero, hzero, Nat.add_zero] at this

/-- The bound is a whole number of the pages. -/
theorem dvd_initPartitionBytes {env : Option ℤ} {localSize pagesize : ℕ} (hpage : 512 ∣ pagesize) :
    512 ∣ initPartitionBytes env localSize pagesize := by
  unfold initPartitionBytes uint32 roundUp uint64
  have hround : ∀ n, 512 ∣ n * (localSize * pagesize) :=
    fun n => Dvd.dvd.mul_left (Dvd.dvd.mul_left hpage localSize) n
  exact (Nat.dvd_mod_iff (by decide)).mpr ((Nat.dvd_mod_iff (by decide)).mpr (hround _))

end Alignment

/-! ### The aligned partitions -/

/-- The bytes of an entry, aligned. -/
def TensorTableEntry.aligned (dtype : DataType) (e : TensorTableEntry) : Range :=
  { start := e.offset, len := align e.len dtype }

/-- What is in the tensor, of an access through the pointer of a partition. -/
def TensorTableEntry.place (e : TensorTableEntry) (r : Range) : Range :=
  { start := e.offset + r.start, len := r.len }

/-- The accesses of a partition are in the partition and in buffers of its size. -/
structure InPartition (dtype : DataType) (e : TensorTableEntry) (as : List Access) : Prop where
  data : ∀ a ∈ as, a.buffer = .data → (e.place a.bytes).Within (e.aligned dtype)
  buf : ∀ a ∈ as, a.buffer ≠ .data → a.bytes.Within { start := 0, len := align e.len dtype }

theorem inPartition_of_staysBelow {dtype : DataType} {e : TensorTableEntry} {as : List Access}
    (h : StaysBelow (align e.len dtype) as) : InPartition dtype e as := by
  refine ⟨fun a ha _ => ?_, fun a ha _ => ?_⟩
  · have := h a ha
    unfold Range.stop at this
    unfold Range.Within Range.stop TensorTableEntry.place TensorTableEntry.aligned
    exact ⟨Nat.le_add_right _ _, by simp only; omega⟩
  · have := h a ha
    exact ⟨Nat.zero_le _, by simpa [Range.stop] using this⟩

section Partitions

variable {dtype : DataType} {size bound : ℕ} (compressors : ℕ) (entry : TensorTableEntry)

/-- The offset of a cut is the bytes before it. -/
theorem partitionEntry_offset (hbound : 0 < bound) (hsize : size < 2 ^ 32) {i : ℕ}
    (hi : i < numParts size bound) : (partitionEntry size bound compressors entry i).offset = i * bound :=
  Nat.mod_eq_of_lt (by have := (lt_numParts hbound).mp hi; omega)

/-- Only the last partition is not aligned. -/
theorem aligned_stop (hdtype : Compressible dtype) (hdvd : 512 ∣ bound) (hbound : 0 < bound)
    (hsize : size < 2 ^ 32) {i : ℕ} (hi : i < numParts size bound) :
    ((partitionEntry size bound compressors entry i).aligned dtype).stop =
      if (i + 1) * bound ≤ size then (i + 1) * bound else align size dtype := by
  have hstart := (lt_numParts hbound).mp hi
  unfold TensorTableEntry.aligned Range.stop
  simp only [partitionEntry_offset compressors entry hbound hsize hi]
  simp only [partitionEntry]
  by_cases hfull : (i + 1) * bound ≤ size
  · rw [if_pos hfull]
    rw [Nat.add_mul, Nat.one_mul] at hfull ⊢
    rw [Nat.min_eq_left (by omega), align_of_dvd hdvd hdtype]
  · rw [if_neg hfull]
    rw [Nat.add_mul, Nat.one_mul] at hfull
    rw [Nat.min_eq_right (by omega), ← align_add (Dvd.dvd.mul_left hdvd i) hdtype,
      Nat.add_sub_cancel' (by omega)]

theorem le_align (n : ℕ) (dtype : DataType) : n ≤ align n dtype := Nat.le_add_right _ _

theorem aligned_within (hdtype : Compressible dtype) (hdvd : 512 ∣ bound) (hbound : 0 < bound)
    (hsize : size < 2 ^ 32) {i : ℕ} (hi : i < numParts size bound) :
    ((partitionEntry size bound compressors entry i).aligned dtype).Within
      { start := 0, len := align size dtype } := by
  have hle := le_align size dtype
  refine ⟨Nat.zero_le _, ?_⟩
  rw [aligned_stop compressors entry hdtype hdvd hbound hsize hi]
  simp only [Range.stop, Nat.zero_add]
  split <;> omega

theorem aligned_disjoint (hdtype : Compressible dtype) (hdvd : 512 ∣ bound) (hbound : 0 < bound)
    (hsize : size < 2 ^ 32) {i j : ℕ} (hi : i < numParts size bound) (hj : j < numParts size bound)
    (hij : i ≠ j) : ((partitionEntry size bound compressors entry i).aligned dtype).Disjoint
      (partitionEntry size bound compressors entry j).range := by
  have hstart := (lt_numParts hbound).mp hj
  rcases Nat.lt_or_gt_of_ne hij with hlt | hgt
  · -- a partition before another one is a full one
    have hnext : (i + 1) * bound ≤ j * bound := Nat.mul_le_mul_right bound hlt
    refine .of_le ?_
    rw [aligned_stop compressors entry hdtype hdvd hbound hsize hi, if_pos (by omega)]
    exact hnext.trans_eq (partitionEntry_offset compressors entry hbound hsize hj).symm
  · have hnext : (j + 1) * bound ≤ i * bound := Nat.mul_le_mul_right bound hgt
    refine (Range.Disjoint.of_le ?_).symm
    rw [Nat.add_mul, Nat.one_mul] at hnext
    unfold Range.stop TensorTableEntry.range TensorTableEntry.aligned
    simp only [partitionEntry_offset compressors entry hbound hsize hi,
      partitionEntry_offset compressors entry hbound hsize hj]
    simp only [partitionEntry]
    omega

/-- Every cut has whole elements. -/
theorem dvd_len (hdtype : Compressible dtype) (hdvd : 512 ∣ bound)
    (hwhole : getDataTypeLength dtype ∣ size) (i : ℕ) :
    getDataTypeLength dtype ∣ min bound (size - i * bound) := by
  have hlength : getDataTypeLength dtype ∣ 512 := by
    cases dtype with
    | float16 | float32 | float64 => decide
    | _ => exact hdtype.elim
  have hb : getDataTypeLength dtype ∣ bound := hlength.trans hdvd
  rcases min_choice bound (size - i * bound) with h | h
  · rw [h]
    exact hb
  · rw [h]
    exact Nat.dvd_sub hwhole (Dvd.dvd.mul_left hb i)

end Partitions

/--
**What the kernels read and write of a partition is in the aligned partition.**  That is in
the shared buffer and meets no other partition, and the compressor that `InitTensor` made for
it has buffers of its size.
-/
theorem kernels_stay_in_partition {env : Option ℤ} {localSize pagesize bound : ℕ}
    (hpage : 512 ∣ pagesize) (hinit : bound = initPartitionBytes env localSize pagesize)
    (hbound : 0 < bound) (hbound' : bound < 2 ^ 31) {dtype : DataType}
    (hdtype : Compressible dtype) {entry : TensorTableEntry} (hcounter : entry.counterPtr.isSome)
    (tensor : Tensor) (htensor : (entry.tensor <|> entry.output) = some tensor)
    (hsize : tensor.size < 2 ^ 32) (hwhole : getDataTypeLength dtype ∣ tensor.size)
    {K : Type} [Field K] [LinearOrder K] [FloorSemiring K] (compressors : ℕ) :
    ∃ es, partitionTensor bound compressors entry = .ok es ∧
      (es.Pairwise fun e e' =>
        (e.aligned dtype).Disjoint e'.range ∧ (e'.aligned dtype).Disjoint e.range) ∧
      ∀ e ∈ es, (e.aligned dtype).Within { start := 0, len := align tensor.size dtype } ∧
        (∀ kwargs rng (buf : Mem (Cell (scalarBits dtype) K)) (src : Mem K),
          InPartition dtype e (accesses kwargs dtype (align e.len dtype)
            (e.len / getDataTypeLength dtype) rng buf src)) ∧
        ∀ cfg (context context' : Context K) kwargs, cfg.partitionBytes = bound →
          Initialized cfg context context' kwargs dtype tensor.size →
          context'.compressorList.length = compressors →
            ∃ kind, context'.compressorOf e = some { kind := kind, size := align e.len dtype } := by
  have hdvd : 512 ∣ bound := hinit ▸ dvd_initPartitionBytes hpage
  refine ⟨_, partitionTensor_eq hcounter tensor htensor (by omega) hbound (by omega) compressors,
    ?_, fun e he => ?_⟩
  · refine List.pairwise_map.mpr ((List.nodup_range).pairwise_of_forall_ne fun i hi j hj hij => ?_)
    have hi := List.mem_range.mp hi
    have hj := List.mem_range.mp hj
    exact ⟨aligned_disjoint compressors entry hdtype hdvd hbound hsize hi hj hij,
      aligned_disjoint compressors entry hdtype hdvd hbound hsize hj hi hij.symm⟩
  · obtain ⟨i, hi, rfl⟩ := List.mem_map.mp he
    have hi := List.mem_range.mp hi
    refine ⟨aligned_within compressors entry hdtype hdvd hbound hsize hi, ?_, ?_⟩
    · intro kwargs rng buf src
      have hstart := (lt_numParts hbound).mp hi
      have hlen := Nat.div_mul_cancel (dvd_len hdtype hdvd hwhole i)
      have hpos : 0 < min bound (tensor.size - i * bound) / getDataTypeLength dtype :=
        Nat.div_pos (Nat.le_of_dvd (by omega) (dvd_len hdtype hdvd hwhole i))
          (getDataTypeLength_pos dtype)
      have hstays := accesses_staysBelow hdtype hpos kwargs rng buf src
      rw [hlen] at hstays
      exact inPartition_of_staysBelow hstays
    · intro cfg context context' kwargs hcfg hmade hcount
      subst hcfg hcount
      obtain ⟨kind, _, hof⟩ := hmade.compressorOf_eq (by omega) hbound (by omega) entry hi
      exact ⟨kind, hof⟩

/-- A full partition and one of a single element. -/
theorem kernels_stay_in_partition_two :
    let tensor : Tensor := ⟨65540, 16385, .float32⟩
    let entry : TensorTableEntry := ⟨"t", 0, some tensor, none, 0, none, 0, [], 0, 0, some 0, 2, none⟩
    ∃ es, partitionTensor 65536 2 entry = .ok es ∧
      (es.Pairwise fun e e' =>
        (e.aligned .float32).Disjoint e'.range ∧ (e'.aligned .float32).Disjoint e.range) ∧
      ∀ e ∈ es, (e.aligned .float32).Within { start := 0, len := align 65540 .float32 } ∧
        (∀ kwargs rng (buf : Mem (Cell (scalarBits .float32) ℚ)) (src : Mem ℚ),
          InPartition .float32 e (accesses kwargs .float32 (align e.len .float32)
            (e.len / getDataTypeLength .float32) rng buf src)) ∧
        ∀ cfg (context context' : Context ℚ) kwargs, cfg.partitionBytes = 65536 →
          Initialized cfg context context' kwargs .float32 65540 →
          context'.compressorList.length = 2 →
            ∃ kind, context'.compressorOf e = some { kind := kind, size := align e.len .float32 } := by
  intro tensor entry
  have hinit : 65536 = initPartitionBytes (some 65536) 1 4096 := by decide
  exact kernels_stay_in_partition (by decide) hinit (by decide) (by decide)
    (show Compressible .float32 from trivial) rfl tensor rfl
    (by decide) (by decide) 2

end DeepInc.Worker
