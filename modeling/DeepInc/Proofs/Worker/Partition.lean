/-
What the cuts of a tensor are.

Every loop over the cuts takes the bound, or what is left of the size if that is less.  As long
as the type a length is stored in holds it, all loops make the same cuts: `⌈size / bound⌉` of
them, each one `bound` bytes long but for the last.  They tile the tensor, and there are as many
as `InitTensor` makes keys.

`PartitionTensor` stores more than lengths.  The offset of a partition goes into a field of 32
bits, while it is computed with as many bits as the size has.  An offset from `2 ^ 32` on is
stored without its upper bits, and the partition is at another place of the tensor.

What `PartitionTensor` stores tiles the tensor exactly if the last offset fits its field.  The
size may be beyond that by a partition.
-/
import DeepInc.Worker.Context
import Mathlib.Algebra.Order.Group.Nat
import Mathlib.Tactic.Ring

namespace DeepInc.Worker

open Tiling

/-! ### The cuts -/

/-- The cuts there are. -/
def numParts (size bound : ℕ) : ℕ := (size + bound - 1) / bound

/-- A cut, by its position. -/
def cut (size bound i : ℕ) : Range := { start := i * bound, len := min bound (size - i * bound) }

section Cuts

variable {size bound : ℕ} {stored : ℕ → ℕ}

@[simp] theorem cut_start (size bound i : ℕ) : (cut size bound i).start = i * bound := rfl

@[simp] theorem cut_len (size bound i : ℕ) : (cut size bound i).len = min bound (size - i * bound) := rfl

/-- The cuts are those that start before the end. -/
theorem lt_numParts (hbound : 0 < bound) {i : ℕ} : i < numParts size bound ↔ i * bound < size := by
  unfold numParts
  rw [Nat.lt_iff_add_one_le, Nat.le_div_iff_mul_le hbound, Nat.add_mul]
  omega

theorem numParts_zero (hbound : 0 < bound) : numParts 0 bound = 0 :=
  Nat.div_eq_of_lt (by omega)

theorem numParts_succ (hbound : 0 < bound) (hsize : bound < size) :
    numParts size bound = numParts (size - bound) bound + 1 := by
  unfold numParts
  rw [show size + bound - 1 = size - bound + bound - 1 + bound by omega,
    Nat.add_div_right _ hbound]

theorem numParts_of_le (hsize : 0 < size) (hle : size ≤ bound) : numParts size bound = 1 := by
  unfold numParts
  exact Nat.div_eq_of_lt_le (by omega) (by omega)

/-- A loop that stores lengths as they are makes these cuts. -/
theorem cutLoop_eq (hbound : 0 < bound) (hsize : size < 2 ^ 64)
    (hstored : ∀ n ≤ min bound size, stored n = n) {fuel accumulated : ℕ}
    (hfuel : size - accumulated < fuel) (hle : accumulated ≤ size) :
    cutLoop stored size bound fuel accumulated =
      .ok ((List.range (numParts (size - accumulated) bound)).map fun i =>
        ⟨accumulated + i * bound, min bound (size - accumulated - i * bound)⟩) := by
  induction fuel generalizing accumulated with
  | zero => omega
  | succ fuel ih =>
      unfold cutLoop
      by_cases hend : accumulated < size
      · simp only [if_pos hend]
        by_cases hlast : bound < size - accumulated
        · simp only [if_pos hlast]
          rw [hstored bound (by omega), uint64, Nat.mod_eq_of_lt (by omega),
            ih (by omega) (by omega), numParts_succ hbound hlast, List.range_succ_eq_map,
            List.map_cons, List.map_map]
          simp only [bind, Except.bind, Except.ok.injEq, List.cons.injEq, Range.mk.injEq]
          refine ⟨⟨by omega, by omega⟩, ?_⟩
          refine congrArg₂ _ (funext fun i => ?_) (by rw [Nat.sub_add_eq])
          simp only [Function.comp, Nat.succ_eq_add_one, Nat.add_mul, Range.mk.injEq]
          omega
        · simp only [if_neg hlast]
          rw [hstored _ (by omega), uint64, Nat.mod_eq_of_lt (by omega), ih (by omega) (by omega),
            show size - (accumulated + (size - accumulated)) = 0 by omega, numParts_zero hbound,
            numParts_of_le (by omega) (by omega)]
          simp only [bind, Except.bind, List.range_zero, List.map_nil, List.range_one,
            List.map_cons, Except.ok.injEq, List.cons.injEq, Range.mk.injEq, and_true]
          omega
      · rw [if_neg hend, show size - accumulated = 0 by omega, numParts_zero hbound]
        rfl

/--
**The cuts of a tensor.**

Whichever type a length is stored in, the loop makes these cuts if the type holds the lengths
that are added.
-/
theorem cuts_eq (stored : ℕ → ℕ) (hbound : 0 < bound) (hsize : size < 2 ^ 64)
    (hstored : ∀ n ≤ min bound size, stored n = n) :
    cuts stored size bound = .ok ((List.range (numParts size bound)).map (cut size bound)) := by
  unfold cuts
  rw [cutLoop_eq hbound hsize hstored (by omega) (Nat.zero_le _)]
  simp only [Nat.sub_zero, Nat.zero_add]
  rfl

theorem uint32_of_le {n : ℕ} (hbound : bound < 2 ^ 32) (h : n ≤ min bound size) : uint32 n = n :=
  Nat.mod_eq_of_lt (by omega)

/-- The cuts tile the tensor. -/
theorem tiles_cuts (hbound : 0 < bound) :
    Tiles 0 ((List.range (numParts size bound)).map (cut size bound)) size := by
  have hlen : numParts size bound * bound ≥ size := by
    by_contra hlt
    exact absurd ((lt_numParts hbound).mpr (Nat.lt_of_not_le hlt)) (lt_irrefl _)
  have htiles := tiles_map_range (fun i => min (i * bound) size)
    (fun i => min bound (size - i * bound)) (numParts size bound) fun i hi => by
      have := (lt_numParts hbound).mp hi
      simp only [Nat.add_mul]
      omega
  rw [Nat.zero_mul, Nat.zero_min, Nat.min_eq_right hlen] at htiles
  convert htiles using 1
  refine List.map_congr_left fun i hi => ?_
  have := (lt_numParts hbound).mp (List.mem_range.mp hi)
  simp only [cut, Range.mk.injEq, and_true]
  omega

/-- The loop of `InitTensor` over the keys makes one for every cut. -/
theorem initKeys_eq (declaredKey : ℕ) (hbound : 0 < bound) (hsize : size < 2 ^ 64) :
    initKeys declaredKey size bound = .ok (keysFrom declaredKey (numParts size bound)) := by
  unfold initKeys
  rw [cuts_eq id hbound hsize fun _ _ => rfl]
  simp only [bind, Except.bind, List.length_map, List.length_range]

@[simp] theorem length_keysFrom (declaredKey n : ℕ) : (keysFrom declaredKey n).length = n := by
  simp [keysFrom]

end Cuts

/-! ### What `PartitionTensor` stores

One direction is that nothing is lost when all offsets fit.  For the other, entries that tile
the tensor in their order begin where the lengths before them end, so that no offset can have
been cut off.
-/

section PartitionTensor

variable {size bound : ℕ}

/-- The entry of a partition. -/
def partitionEntry (size bound compressors : ℕ) (entry : TensorTableEntry) (i : ℕ) :
    TensorTableEntry :=
  { entry with
    tensorName := entry.tensorName ++ "_" ++ toString i
    offset := uint32 (i * bound)
    len := min bound (size - i * bound)
    compressor := if compressors = 0 then none else some i }

/-- `PartitionTensor` makes an entry for every cut. -/
theorem partitionTensor_eq {entry : TensorTableEntry} (hcounter : entry.counterPtr.isSome)
    (tensor : Tensor) (htensor : (entry.tensor <|> entry.output) = some tensor)
    (hsize : tensor.size < 2 ^ 64) (hbound : 0 < bound) (hbound' : bound < 2 ^ 32)
    (compressors : ℕ) : partitionTensor bound compressors entry =
      .ok ((List.range (numParts tensor.size bound)).map
        (partitionEntry tensor.size bound compressors entry)) := by
  have hcuts := cuts_eq uint32 hbound hsize fun _ => uint32_of_le hbound'
  unfold partitionTensor
  rw [htensor, hcounter]
  simp only [check, if_true, bind, Except.bind, hcuts]
  refine congrArg Except.ok (List.ext_getElem (by simp) fun i hi hi' => ?_)
  simp [partitionEntry]

/-- What a list of partitions should be. -/
structure Partitioned (es : List TensorTableEntry) (size bound : ℕ) : Prop where
  bounds : ∀ e ∈ es, 0 < e.len ∧ e.len ≤ bound
  disjoint : es.Pairwise fun e e' => e.range.Disjoint e'.range
  tiles : Tiles 0 (es.map (·.range)) size

variable (compressors : ℕ) (entry : TensorTableEntry)

/-- The entries, when every offset fits its field. -/
theorem partitioned_entries (hbound : 0 < bound) (hlast : (size - 1) / bound * bound < 2 ^ 32) :
    Partitioned ((List.range (numParts size bound)).map
      (partitionEntry size bound compressors entry)) size bound := by
  have hoffset : ∀ i < numParts size bound, uint32 (i * bound) = i * bound := by
    intro i hi
    have hle : i ≤ (size - 1) / bound := by
      rw [Nat.le_div_iff_mul_le hbound]
      have := (lt_numParts hbound).mp hi
      omega
    exact Nat.mod_eq_of_lt (Nat.lt_of_le_of_lt (Nat.mul_le_mul_right bound hle) hlast)
  have htiles : Tiles 0 (((List.range (numParts size bound)).map
      (partitionEntry size bound compressors entry)).map (·.range)) size := by
    rw [List.map_map]
    convert tiles_cuts hbound using 1
    refine List.map_congr_left fun i hi => ?_
    simp only [Function.comp, TensorTableEntry.range, partitionEntry, cut,
      hoffset i (List.mem_range.mp hi)]
  refine ⟨fun e he => ?_, ?_, htiles⟩
  · obtain ⟨i, hi, rfl⟩ := List.mem_map.mp he
    have := (lt_numParts hbound).mp (List.mem_range.mp hi)
    simp only [partitionEntry]
    omega
  · exact List.pairwise_map.mp htiles.pairwise_disjoint

/-- Entries that tile the tensor have kept all offsets, and so the last one. -/
theorem Partitioned.offset_lt (hbound : 0 < bound) (hsize : 0 < size)
    (h : Partitioned ((List.range (numParts size bound)).map
      (partitionEntry size bound compressors entry)) size bound) :
    (size - 1) / bound * bound < 2 ^ 32 := by
  have htiles := h.tiles
  rw [List.map_map] at htiles
  have hkept : ∀ i < numParts size bound, uint32 (i * bound) = i * bound := by
    intro i hi
    induction i with
    | zero => simp [uint32]
    | succ i ih =>
        have hstart := (lt_numParts hbound).mp hi
        have hnext : uint32 ((i + 1) * bound) = uint32 (i * bound) + min bound (size - i * bound) :=
          htiles.start_succ hi
        rw [hnext, ih (by omega), Nat.add_mul]
        rw [Nat.add_mul] at hstart
        omega
  have hlast : (size - 1) / bound < numParts size bound := by
    rw [lt_numParts hbound]
    have := Nat.div_mul_le_self (size - 1) bound
    omega
  rw [← hkept _ hlast]
  exact Nat.mod_lt _ (by decide)

end PartitionTensor

/--
**The partitions of a tensor tile it exactly if the last one starts below `2 ^ 32`.**  There
are always as many as `InitTensor` made keys for.
-/
theorem partitionTensor_partitioned_iff {entry : TensorTableEntry}
    (hcounter : entry.counterPtr.isSome) (tensor : Tensor)
    (htensor : (entry.tensor <|> entry.output) = some tensor) (hsize : 0 < tensor.size)
    (hsize' : tensor.size < 2 ^ 63) {bound : ℕ} (hbound : 0 < bound) (hbound' : bound < 2 ^ 32)
    (compressors declaredKey : ℕ) :
    (∃ es keys, partitionTensor bound compressors entry = .ok es ∧
      initKeys declaredKey tensor.size bound = .ok keys ∧
      Partitioned es tensor.size bound ∧ es.length = keys.length) ↔
    (tensor.size - 1) / bound * bound < 2 ^ 32 := by
  have hsize64 : tensor.size < 2 ^ 64 := hsize'.trans (by decide)
  rw [partitionTensor_eq hcounter tensor htensor hsize64 hbound hbound' compressors,
    initKeys_eq declaredKey hbound hsize64]
  constructor
  · rintro ⟨es, keys, hes, _, h, _⟩
    cases hes
    exact h.offset_lt compressors entry hbound hsize
  · intro hlast
    exact ⟨_, _, rfl, rfl, partitioned_entries compressors entry hbound hlast, by simp⟩

/-- A tensor of three partitions. -/
theorem partitionTensor_partitioned_three :
    let entry : TensorTableEntry :=
      { tensorName := "t", key := 0, tensor := some ⟨10, 10, .int8⟩, output := none, priority := 0,
        readyEvent := none, device := 0, queueList := [], offset := 0, len := 0,
        counterPtr := some 0, totalPartnum := 3, compressor := none }
    ∃ es keys, partitionTensor 4 0 entry = .ok es ∧ initKeys 0 10 4 = .ok keys ∧
      Partitioned es 10 4 ∧ es.length = keys.length :=
  (partitionTensor_partitioned_iff rfl ⟨10, 10, .int8⟩ rfl (by decide) (by decide)
    (by decide) (by decide) 0 0).mpr (by decide)

/-- The first offset that does not fit: a tensor of `2 ^ 32 + 4` bytes, in cuts of 4096. -/
theorem last_offset_lost : ¬∀ (entry : TensorTableEntry) (tensor : Tensor) (bound : ℕ),
    entry.counterPtr.isSome → (entry.tensor <|> entry.output) = some tensor → 0 < tensor.size →
    tensor.size < 2 ^ 63 → 0 < bound → bound < 2 ^ 32 →
      ∃ es keys, partitionTensor bound 0 entry = .ok es ∧
        initKeys 0 tensor.size bound = .ok keys ∧
        Partitioned es tensor.size bound ∧ es.length = keys.length := by
  intro h
  let tensor : Tensor := ⟨2 ^ 32 + 4, 2 ^ 30 + 1, .float32⟩
  let entry : TensorTableEntry :=
    { tensorName := "t", key := 0, tensor := some tensor, output := none, priority := 0,
      readyEvent := none, device := 0, queueList := [], offset := 0, len := 0,
      counterPtr := some 0, totalPartnum := 1048577, compressor := none }
  obtain ⟨es, keys, hes, _, hparts, _⟩ := h entry tensor 4096 rfl rfl (by decide) (by decide)
    (by decide) (by decide)
  rw [partitionTensor_eq rfl tensor rfl (by decide) (by decide) (by decide) 0] at hes
  cases hes
  exact absurd (hparts.offset_lt 0 entry (by decide) (by decide)) (by decide)

end DeepInc.Worker
