/-
When the compressors made by `InitTensor` pass their checks.

The threshold below which nothing is compressed is on the whole tensor, but every partition is
compressed on its own.  The last partition is what is left over, and may be one element.

`InitTensor` makes a compressor for every partition, for its aligned length.  The compressors of
a few elements each take more than they save: onebit sends a word and a `float` at least, and
top-k and random-k take `k` from the aligned length while they check it against the elements
there are.  Three checks can fail: that of the compressor, the one of `RunCompressLoopOnce` that
what is sent is no longer than the partition, and the one of the server, which compares the same
lengths.

So the checks pass for every partition exactly if there is room in every partition for what is
sent of it, and that is a condition on its length, on the data type and on `k`.  For onebit it
leaves out partitions of one element, and those of two halves.
-/
import DeepInc.Proofs.Compressor.Onebit
import DeepInc.Proofs.Compressor.Sparse
import DeepInc.Proofs.Worker.Context
import DeepInc.Server.Engine
import DeepInc.Worker.Compress
import Mathlib.Algebra.Order.Floor.Semiring

namespace DeepInc.Worker

open Compressor Outcome Tiling

/-! ### What fits in a partition -/

/-- A partition of `len` bytes has room for what is sent of it. -/
def Fits (kwargs : Kwargs) (dtype : DataType) (len : ℕ) : Prop :=
  match kwargs.compressorType with
  | .onebit => (if len < getDataTypeLength dtype then 0 else getDataTypeLength dtype) + sizeofFloat ≤ len
  | .topk | .randomk =>
    factorK kwargs.compressorK (align len dtype) dtype ≤ len / getDataTypeLength dtype / 2

/-- The words of the signs and a scale fit, unless there are one or two elements only. -/
theorem onebit_fits_iff {dtype : DataType} (hdtype : Compressible dtype) (len : ℕ) :
    Onebit.chunkLen (scalarBits dtype) (len / getDataTypeLength dtype) *
        sizeofIndex (scalarBits dtype) + sizeofFloat ≤ len ↔
      (if len < getDataTypeLength dtype then 0 else getDataTypeLength dtype) + sizeofFloat ≤ len := by
  rw [sizeofIndex_scalarBits]
  unfold Onebit.chunkLen sizeofFloat
  by_cases hlt : len < getDataTypeLength dtype
  · rw [if_pos hlt, Nat.div_eq_of_lt hlt]
    cases dtype with
    | float16 | float32 | float64 => simp [scalarBits, getDataTypeLength]
    | _ => exact hdtype.elim
  · rw [if_neg hlt]
    cases dtype with
    | float16 | float32 | float64 =>
        simp only [scalarBits, getDataTypeLength] at hlt ⊢
        omega
    | _ => exact hdtype.elim

section Compress

variable {K : Type} [Field K] [LinearOrder K] [FloorSemiring K]

/-- `Compress` and the check after it, of a compressor as the registry makes it. -/
theorem compress_fits_iff {dtype : DataType} (hdtype : Compressible dtype) {kwargs : Kwargs}
    {len : ℕ} {kind : Kind K} (hkind : create kwargs (align len dtype) dtype = some kind) (size : ℕ) :
    (∀ rng buf grad, ∃ r, (kind.impl (scalarBits dtype) size).compress rng buf grad
        (len / getDataTypeLength dtype) = .ok r ∧ r.2.2 ≤ len) ↔ Fits kwargs dtype len := by
  -- of a sparse compressor, what its own check lets pass is at most as long as the partition
  have hsparse : ∀ k, k ≤ len / getDataTypeLength dtype / 2 →
      k * Sparse.sizeofPair (scalarBits dtype) ≤ len := by
    intro k hk
    unfold Sparse.sizeofPair
    rw [sizeofIndex_scalarBits, Nat.mul_comm 2, Nat.mul_left_comm]
    have hdouble : k * 2 ≤ len / getDataTypeLength dtype := by omega
    calc getDataTypeLength dtype * (k * 2)
        ≤ getDataTypeLength dtype * (len / getDataTypeLength dtype) := Nat.mul_le_mul_left _ hdouble
      _ ≤ len := Nat.mul_div_le _ _
  unfold create at hkind
  unfold Fits
  cases htype : kwargs.compressorType with
  | onebit =>
      simp only [htype, Option.some.injEq] at hkind ⊢
      subst hkind
      rw [← onebit_fits_iff hdtype]
      constructor
      · intro h
        obtain ⟨r, hr, hle⟩ := h ⟨0, 0⟩ (fun _ => 0) (fun _ => 0)
        cases hr
        exact hle
      · intro hle rng buf grad
        exact ⟨_, rfl, hle⟩
  | topk =>
      simp only [htype, Option.ite_none_right_eq_some, Option.some.injEq] at hkind ⊢
      obtain ⟨_, rfl⟩ := hkind
      constructor
      · intro h
        obtain ⟨r, hr, _⟩ := h ⟨0, 0⟩ (fun _ => 0) (fun _ => 0)
        by_contra hlarge
        simp [Kind.impl, Topk.impl, Topk.compress, hlarge, Except.map] at hr
      · intro hk rng buf grad
        refine ⟨_, congrArg (Except.map fun r => (rng, r)) (Topk.compress_eq hk buf grad), ?_⟩
        exact hsparse _ hk
  | randomk =>
      simp only [htype, Option.ite_none_right_eq_some, Option.some.injEq] at hkind ⊢
      obtain ⟨_, rfl⟩ := hkind
      constructor
      · intro h
        obtain ⟨r, hr, _⟩ := h ⟨0, 0⟩ (fun _ => 0) (fun _ => 0)
        by_contra hlarge
        simp [Kind.impl, Randomk.impl, Randomk.compress, hlarge] at hr
      · intro hk rng buf grad
        exact ⟨_, Randomk.compress_eq hk rng buf grad, hsparse _ hk⟩

end Compress

/-! ### The compressors of a tensor

The loop that makes the compressors goes over the same cuts as the one that makes the keys, so
that the compressor of a task is found by the position of its partition.
-/

section Compressors

variable {K : Type} {cfg : Config}

/-- `InitTensor` makes the compressor of every cut. -/
theorem createAll_spec {kwargs : Kwargs} {dtype : DataType} {rs : List Range}
    {compressors : List (CompressorEntry K)} (h : createAll kwargs dtype rs = .ok compressors)
    {i : ℕ} {r : Range} (hr : rs[i]? = some r) : ∃ kind,
      create kwargs (align r.len dtype) dtype = some kind ∧
      compressors[i]? = some { kind := kind, size := align r.len dtype } := by
  induction rs generalizing compressors i with
  | nil => simp at hr
  | cons r' rs ih =>
      unfold createAll at h
      cases hkind : create (K := K) kwargs (align r'.len dtype) dtype with
      | none => simp [hkind] at h
      | some kind =>
          simp only [hkind] at h
          obtain ⟨rest, hrest, h⟩ := bind_eq_ok h
          cases h
          cases i with
          | zero =>
              obtain rfl : r' = r := by simpa using hr
              exact ⟨kind, hkind, rfl⟩
          | succ i => exact ih hrest (by simpa using hr)

theorem length_createAll {kwargs : Kwargs} {dtype : DataType} {rs : List Range}
    {compressors : List (CompressorEntry K)} (h : createAll kwargs dtype rs = .ok compressors) :
    compressors.length = rs.length := by
  induction rs generalizing compressors with
  | nil =>
      cases h
      rfl
  | cons r rs ih =>
      unfold createAll at h
      cases hkind : create (K := K) kwargs (align r.len dtype) dtype with
      | none => simp [hkind] at h
      | some kind =>
          simp only [hkind] at h
          obtain ⟨rest, hrest, h⟩ := bind_eq_ok h
          cases h
          simp [ih hrest]

/-- A tensor that `InitTensor` made compressors for. -/
structure Initialized (cfg : Config) (context context' : Context K) (kwargs : Kwargs)
    (dtype : DataType) (size : ℕ) : Prop where
  root : (cfg.isDistributed && cfg.isRootDevice) = true
  fresh : context.initialized = false
  kwargs : context.kwargs = some kwargs
  large : cfg.minCompressBytes ≤ size
  ok : initTensor cfg context size dtype = .ok context'

variable {context context' : Context K} {kwargs : Kwargs} {dtype : DataType} {size : ℕ}

theorem Initialized.spec (h : Initialized cfg context context' kwargs dtype size)
    (hsize : size < 2 ^ 63) (hbound : 0 < cfg.partitionBytes)
    (hbound' : cfg.partitionBytes < 2 ^ 32) :
    0 < size ∧ min cfg.partitionBytes size < 2 ^ 31 ∧
      createAll kwargs dtype ((List.range (numParts size cfg.partitionBytes)).map
        (cut size cfg.partitionBytes)) = .ok context'.compressorList := by
  obtain ⟨hpos, keyList, compressors, lens, kwargs', _, hkwargs, hlens, hcomp, hsum, _, rfl⟩ :=
    initTensor_spec h.fresh h.ok
  have hint := lt_of_sum_eq hpos hsize hbound' hlens hsum
  have hcuts := cuts_eq int32 hbound (show size < 2 ^ 64 by omega) fun n hn => int32_of_lt (by omega)
  rw [hcuts] at hlens
  cases hlens
  rw [if_neg (Nat.not_lt.mpr h.large), h.kwargs] at hkwargs
  rw [hkwargs, initCompressors, if_pos h.root] at hcomp
  exact ⟨hpos, hint, hcomp⟩

/-- The compressor of a partition has buffers of its aligned length. -/
theorem Initialized.compressorOf_eq (h : Initialized cfg context context' kwargs dtype size)
    (hsize : size < 2 ^ 63) (hbound : 0 < cfg.partitionBytes)
    (hbound' : cfg.partitionBytes < 2 ^ 32) (entry : TensorTableEntry) {i : ℕ}
    (hi : i < numParts size cfg.partitionBytes) :
    ∃ kind, create kwargs (align (cut size cfg.partitionBytes i).len dtype) dtype = some kind ∧
      context'.compressorOf (partitionEntry size cfg.partitionBytes
        context'.compressorList.length entry i) =
          some { kind := kind, size := align (cut size cfg.partitionBytes i).len dtype } := by
  obtain ⟨_, _, hall⟩ := h.spec hsize hbound hbound'
  have hcount := length_createAll hall
  rw [List.length_map, List.length_range] at hcount
  have hcut : ((List.range (numParts size cfg.partitionBytes)).map
      (cut size cfg.partitionBytes))[i]? = some (cut size cfg.partitionBytes i) := by
    rw [List.getElem?_map, List.getElem?_range hi]
    rfl
  obtain ⟨kind, hkind, hget⟩ := createAll_spec hall hcut
  refine ⟨kind, hkind, ?_⟩
  unfold Context.compressorOf partitionEntry
  simp only [hcount, show numParts size cfg.partitionBytes ≠ 0 by omega, if_false]
  exact hget

/-- The length of a partition is an `int`. -/
theorem Initialized.int32_len (h : Initialized cfg context context' kwargs dtype size)
    (hsize : size < 2 ^ 63) (hbound : 0 < cfg.partitionBytes) (hbound' : cfg.partitionBytes < 2 ^ 32)
    (entry : TensorTableEntry) (i : ℕ) :
    int32 (partitionEntry size cfg.partitionBytes context'.compressorList.length entry i).len =
      (cut size cfg.partitionBytes i).len := by
  obtain ⟨_, hint, _⟩ := h.spec hsize hbound hbound'
  exact int32_of_lt (by simp only [partitionEntry]; omega)

variable [Field K] [LinearOrder K] [FloorSemiring K]

/-- One partition passes exactly if what is sent of it fits in it. -/
theorem Initialized.runCompress_iff (h : Initialized cfg context context' kwargs dtype size)
    (hdtype : Compressible dtype) (hsize : size < 2 ^ 63) (hbound : 0 < cfg.partitionBytes)
    (hbound' : cfg.partitionBytes < 2 ^ 32) (entry : TensorTableEntry) {i : ℕ}
    (hi : i < numParts size cfg.partitionBytes) :
    (∀ rng buf grad, ∃ c, runCompress context' dtype
      (partitionEntry size cfg.partitionBytes context'.compressorList.length entry i)
      rng buf grad = .ok c) ↔ Fits kwargs dtype (cut size cfg.partitionBytes i).len := by
  obtain ⟨kind, hkind, hof⟩ := h.compressorOf_eq hsize hbound hbound' entry hi
  have hlen := h.int32_len hsize hbound hbound' entry i
  rw [← compress_fits_iff hdtype hkind (align (cut size cfg.partitionBytes i).len dtype)]
  unfold runCompress
  simp only [hof, hlen]
  refine forall_congr' fun rng => forall_congr' fun buf => forall_congr' fun grad => ?_
  cases hrun : (kind.impl (scalarBits dtype) (align (cut size cfg.partitionBytes i).len dtype)).compress
      rng buf grad ((cut size cfg.partitionBytes i).len / getDataTypeLength dtype) with
  | error e => simp
  | ok r =>
      obtain ⟨rng', data, n⟩ := r
      constructor
      · rintro ⟨c, hc⟩
        obtain ⟨_, hcheck, _⟩ := bind_eq_ok hc
        exact ⟨_, rfl, of_decide_eq_true (check_eq_ok hcheck)⟩
      · rintro ⟨r, hr, hle⟩
        cases hr
        have hpass : check (decide (n ≤ (cut size cfg.partitionBytes i).len)) = .ok () :=
          check_eq (decide_eq_true hle)
        refine ⟨{ data := data, size := n }, ?_⟩
        simp only [hpass]
        rfl

/--
What the loop lets pass, the engine of the server does: it compares the length that is pushed
with that of the partition, which `InitTensor` has pushed before.
-/
theorem check_of_runCompress {context : Context K} {task : TensorTableEntry} {rng : Rng}
    {buf : Mem (Cell (scalarBits dtype) K)} {grad : Mem K} {c : Compressed (scalarBits dtype) K}
    (hlen : int32 task.len = task.len)
    (hc : runCompress context dtype task rng buf grad = .ok c) :
    Server.check (c.size ≤ task.len) .compressedLen = .ok () := by
  unfold runCompress at hc
  split at hc
  · cases hc
  · dsimp only at hc
    split at hc
    · cases hc
    · obtain ⟨_, hcheck, hc⟩ := bind_eq_ok hc
      have hle := of_decide_eq_true (check_eq_ok hcheck)
      rw [hlen] at hle
      cases hc
      exact if_pos hle

/--
**The compressors of a tensor pass their checks exactly if every partition has room.**  Those are
the checks of the compressor and of `RunCompressLoopOnce`, and the one of the server on the length
that is pushed.
-/
theorem runCompress_ok_iff_fits (h : Initialized cfg context context' kwargs dtype size)
    (hdtype : Compressible dtype) (hsize : size < 2 ^ 63) (hbound : 0 < cfg.partitionBytes)
    (hbound' : cfg.partitionBytes < 2 ^ 32) {entry : TensorTableEntry}
    (hcounter : entry.counterPtr.isSome) (tensor : Tensor)
    (htensor : (entry.tensor <|> entry.output) = some tensor) (htsize : tensor.size = size) :
    ∃ es, partitionTensor cfg.partitionBytes context'.compressorList.length entry = .ok es ∧
      ((∀ task ∈ es, ∀ rng buf grad, ∃ c, runCompress context' dtype task rng buf grad = .ok c ∧
          Server.check (c.size ≤ task.len) .compressedLen = .ok ()) ↔
        ∀ i < numParts size cfg.partitionBytes,
          Fits kwargs dtype (min cfg.partitionBytes (size - i * cfg.partitionBytes))) := by
  subst htsize
  refine ⟨_, partitionTensor_eq hcounter tensor htensor (hsize.trans (by decide)) hbound hbound' _, ?_⟩
  constructor
  · intro hall i hi
    refine (h.runCompress_iff hdtype hsize hbound hbound' entry hi).mp fun rng buf grad => ?_
    obtain ⟨c, hc, -⟩ := hall _ (List.mem_map_of_mem (List.mem_range.mpr hi)) rng buf grad
    exact ⟨c, hc⟩
  · intro hfits task htask rng buf grad
    obtain ⟨i, hi, rfl⟩ := List.mem_map.mp htask
    have hi := List.mem_range.mp hi
    obtain ⟨c, hc⟩ :=
      (h.runCompress_iff hdtype hsize hbound hbound' entry hi).mpr (hfits i hi) rng buf grad
    exact ⟨c, hc, check_of_runCompress (h.int32_len hsize hbound hbound' entry i) hc⟩

end Compressors

section Examples

/-- Two partitions of two elements, with onebit. -/
theorem runCompress_ok_iff_fits_two :
    let kwargs : Kwargs := ⟨.onebit, 0, false⟩
    let context' : Context ℚ := ⟨true, "t", 0, keysFrom 0 (numParts 16 8), 16,
      [⟨.onebit false, 128⟩, ⟨.onebit false, 128⟩], some kwargs⟩
    let entry : TensorTableEntry := ⟨"t", 0, some ⟨16, 4, .float32⟩, none, 0, none, 0, [], 0, 0,
      some 0, 2, none⟩
    ∃ es, partitionTensor 8 2 entry = .ok es ∧
      ((∀ task ∈ es, ∀ rng buf grad, ∃ c, runCompress context' .float32 task rng buf grad = .ok c ∧
          Server.check (c.size ≤ task.len) .compressedLen = .ok ()) ↔
        ∀ i < numParts 16 8, Fits kwargs .float32 (min 8 (16 - i * 8))) := by
  intro kwargs context' entry
  let cfg : Config := ⟨8, 1, true, true⟩
  have hcomp : initCompressors cfg (some kwargs) .float32
      ((List.range (numParts 16 8)).map (cut 16 8)) = .ok context'.compressorList := rfl
  have hok : initTensor cfg ⟨false, "t", 0, [], 0, [], some kwargs⟩ 16 .float32 = .ok context' :=
    initTensor_eq cfg _ 16 _ (some kwargs) rfl (by decide) (by decide) (by decide) (by decide)
      (by decide) rfl hcomp
  have hinit : Initialized cfg ⟨false, "t", 0, [], 0, [], some kwargs⟩ context' kwargs
      .float32 16 := ⟨rfl, rfl, rfl, by decide, hok⟩
  exact runCompress_ok_iff_fits hinit trivial (by decide) (by decide) (by decide) rfl
    ⟨16, 4, .float32⟩ rfl rfl

/-- A last partition of one element, which onebit sends as a word and a scale. -/
theorem last_partition_too_small : ¬∀ (env : Option ℤ) (localSize pagesize : ℕ) (cfg : Config)
    (context context' : Context ℚ) (kwargs : Kwargs) (dtype : DataType) (size : ℕ)
    (entry : TensorTableEntry) (tensor : Tensor) (es : List TensorTableEntry),
      cfg.partitionBytes = initPartitionBytes env localSize pagesize → 0 < cfg.partitionBytes →
      Initialized cfg context context' kwargs dtype size → Compressible dtype → size < 2 ^ 63 →
      (kwargs.compressorType = .onebit ∨ 0 < kwargs.compressorK ∧ kwargs.compressorK ≤ 1 / 2) →
      entry.counterPtr.isSome → (entry.tensor <|> entry.output) = some tensor → tensor.size = size →
      partitionTensor cfg.partitionBytes context'.compressorList.length entry = .ok es →
        ∀ task ∈ es, ∀ rng buf grad, ∃ c, runCompress context' dtype task rng buf grad = .ok c := by
  intro h
  let kwargs : Kwargs := ⟨.onebit, 0, true⟩
  let cfg : Config := ⟨65536, 65536, true, true⟩
  let tensor : Tensor := ⟨65540, 16385, .float32⟩
  let entry : TensorTableEntry := ⟨"t", 0, some tensor, none, 0, none, 0, [], 0, 0, some 0, 2, none⟩
  let context : Context ℚ := ⟨false, "t", 0, [], 0, [], some kwargs⟩
  let compressors : List (CompressorEntry ℚ) := [⟨.onebit true, 65536⟩, ⟨.onebit true, 128⟩]
  let context' : Context ℚ := ⟨true, "t", 0, keysFrom 0 (numParts 65540 65536), 65540, compressors,
    some kwargs⟩
  have hcomp : initCompressors cfg (some kwargs) .float32
      ((List.range (numParts 65540 65536)).map (cut 65540 65536)) = .ok compressors := rfl
  have hok : initTensor cfg context 65540 .float32 = .ok context' :=
    initTensor_eq cfg context 65540 _ (some kwargs) rfl (by decide) (by decide) (by decide)
      (by decide) (by decide) rfl hcomp
  have hinit : Initialized cfg context context' kwargs .float32 65540 :=
    ⟨rfl, rfl, rfl, by decide, hok⟩
  have hes : partitionTensor 65536 2 entry = .ok _ :=
    partitionTensor_eq rfl tensor rfl (by decide) (by decide) (by decide) 2
  have hlast := h (some 65536) 1 4096 cfg context context' kwargs .float32 65540 entry tensor _ rfl
    (by decide) hinit trivial (by decide) (.inl rfl) rfl rfl rfl hes _
    (List.mem_map_of_mem (List.mem_range.mpr (show 1 < numParts 65540 65536 by decide)))
  have hfits := (hinit.runCompress_iff trivial (by decide) (by decide) (by decide) entry
    (show 1 < numParts 65540 65536 by decide)).mp hlast
  exact absurd hfits (by simp [Fits, kwargs, getDataTypeLength, sizeofFloat, cfg])

end Examples

end DeepInc.Worker
