/-
What `InitTensor` does.

It cuts the tensor twice.  The first loop makes a key for every cut, and the second pushes every
cut to its server and makes its compressor, if the tensor is to have any; a tensor below a
threshold is not to.  Checks behind the loops compare the number of cuts and the sum of their
lengths with what they should be.

When it returns, the tensor has a key for every cut, and as many compressors if it has any.  The
second loop stores lengths as an `int`, so that it makes the same cuts only if none is too long
for that; otherwise its lengths do not add up to the size, and a check stops the program.

A tensor that was initialised before is left as it is, and whatever happens its name and its
number stay.
-/
import DeepInc.Lib.Outcome
import DeepInc.Proofs.Worker.Partition

namespace DeepInc.Worker

open Outcome Tiling

variable {K : Type} {cfg : Config}

theorem check_eq {c : Bool} (h : c = true) : check c = .ok () := by
  rw [h]
  rfl

theorem check_eq_ok {c : Bool} {u : Unit} (h : check c = .ok u) : c = true := by
  unfold check at h
  split at h
  · assumption
  · cases h

/-- What `InitTensor` has done when it returns. -/
theorem initTensor_spec {context c : Context K} {size : ℕ} {dtype : DataType}
    (hinit : context.initialized = false) (h : initTensor cfg context size dtype = .ok c) :
    0 < size ∧ ∃ keyList compressors lens kwargs,
      initKeys context.declaredKey size cfg.partitionBytes = .ok keyList ∧
      kwargs = (if size < cfg.minCompressBytes then none else context.kwargs) ∧
      cuts int32 size cfg.partitionBytes = .ok lens ∧
      initCompressors cfg kwargs dtype lens = .ok compressors ∧
      uint64 (lens.map (·.len)).sum = size ∧
      lens.length = keyList.length ∧
      c = { context with
        initialized := true
        keyList := keyList
        buffLen := size
        compressorList := compressors
        kwargs := kwargs } := by
  unfold initTensor at h
  rw [hinit] at h
  obtain ⟨_, hsize, h⟩ := bind_eq_ok h
  obtain ⟨keyList, hkeys, h⟩ := bind_eq_ok h
  obtain ⟨_, _, h⟩ := bind_eq_ok h
  obtain ⟨_, _, h⟩ := bind_eq_ok h
  obtain ⟨lens, hlens, h⟩ := bind_eq_ok h
  obtain ⟨compressors, hcompressors, h⟩ := bind_eq_ok h
  obtain ⟨_, hsum, h⟩ := bind_eq_ok h
  obtain ⟨_, hcount, h⟩ := bind_eq_ok h
  exact ⟨of_decide_eq_true (check_eq_ok hsize), keyList, compressors, lens, _, hkeys, rfl, hlens,
    hcompressors, of_decide_eq_true (check_eq_ok hsum), of_decide_eq_true (check_eq_ok hcount),
    (Except.ok.inj h).symm⟩

/-! ### The cuts of the last loop -/

theorem int32_of_lt {n : ℕ} (h : n < 2 ^ 31) : int32 n = n := by
  unfold int32
  rw [BitVec.toNat_signExtend, BitVec.msb_eq_false_iff_two_mul_lt.mpr]
  · simp only [BitVec.toNat_setWidth, BitVec.toNat_ofNat, Bool.false_eq_true, if_false]
    omega
  · rw [BitVec.toNat_ofNat]
    omega

theorem int32_of_ge {n : ℕ} (h : 2 ^ 31 ≤ n) (h' : n < 2 ^ 32) : int32 n = n + (2 ^ 64 - 2 ^ 32) := by
  unfold int32
  rw [BitVec.toNat_signExtend, BitVec.msb_eq_true_iff_two_mul_ge.mpr]
  · simp only [BitVec.toNat_setWidth, BitVec.toNat_ofNat, if_true]
    omega
  · rw [BitVec.toNat_ofNat]
    omega

/-- A first length that does not fit is not what the check expects to be added up. -/
theorem lt_of_sum_eq {size bound : ℕ} (hsize : 0 < size) (hsize' : size < 2 ^ 63)
    (hbound : bound < 2 ^ 32) {lens : List Range} (h : cuts int32 size bound = .ok lens)
    (hsum : uint64 (lens.map (·.len)).sum = size) : min bound size < 2 ^ 31 := by
  by_contra hlarge
  obtain ⟨n, rfl⟩ : ∃ n, size = n + 1 := ⟨size - 1, by omega⟩
  have hmin : (if bound < n + 1 - 0 then bound else n + 1 - 0) = min bound (n + 1) := by
    split <;> omega
  unfold cuts cutLoop at h
  rw [if_pos hsize] at h
  simp only [hmin, int32_of_ge (Nat.le_of_not_lt hlarge) (show min bound (n + 1) < 2 ^ 32 by omega)] at h
  unfold cutLoop at h
  rw [if_neg (by unfold uint64; omega)] at h
  cases h
  simp only [List.map_cons, List.map_nil, List.sum_cons, List.sum_nil, uint64] at hsum
  omega

/-- `InitTensor` returns, for lengths that fit. -/
theorem initTensor_eq (cfg : Config) (context : Context K) (size : ℕ) (dtype : DataType)
    (kwargs : Option Compressor.Kwargs) (hinit : context.initialized = false)
    (hsize : 0 < size) (hsize' : size < 2 ^ 63)
    (hbound : 0 < cfg.partitionBytes) (hbound' : cfg.partitionBytes < 2 ^ 32)
    (hint : min cfg.partitionBytes size < 2 ^ 31) {compressors : List (CompressorEntry K)}
    (hkwargs : kwargs = if size < cfg.minCompressBytes then none else context.kwargs)
    (hcompressors : initCompressors cfg kwargs dtype
      ((List.range (numParts size cfg.partitionBytes)).map (cut size cfg.partitionBytes)) =
        .ok compressors) :
    initTensor cfg context size dtype = .ok { context with
      initialized := true
      keyList := keysFrom context.declaredKey (numParts size cfg.partitionBytes)
      buffLen := size
      compressorList := compressors
      kwargs := kwargs } := by
  subst hkwargs
  have hsize64 : size < 2 ^ 64 := by omega
  have hcuts := cuts_eq int32 hbound hsize64 fun n hn => int32_of_lt (by omega)
  have hkeys := initKeys_eq context.declaredKey hbound hsize64
  have hparts : 0 < numParts size cfg.partitionBytes := (lt_numParts hbound).mpr (by omega)
  have htiles : Tiles 0 _ size := tiles_cuts hbound
  have hsum := htiles.sum_len
  rw [Nat.zero_add] at hsum
  have h₁ : check (decide (0 < size)) = .ok () := check_eq (by simpa)
  have h₂ : check (decide (0 < (keysFrom context.declaredKey
      (numParts size cfg.partitionBytes)).length)) = .ok () := check_eq (by simpa)
  have h₃ : check (decide ((keysFrom context.declaredKey (numParts size cfg.partitionBytes)).length =
      uint64 (size + cfg.partitionBytes - 1) / cfg.partitionBytes)) = .ok () := by
    refine check_eq (decide_eq_true ?_)
    rw [length_keysFrom, uint64, Nat.mod_eq_of_lt (by omega)]
    rfl
  have h₄ : check (decide (uint64 ((((List.range (numParts size cfg.partitionBytes)).map
      (cut size cfg.partitionBytes)).map (·.len)).sum) = size)) = .ok () := by
    refine check_eq (decide_eq_true ?_)
    rw [hsum, uint64, Nat.mod_eq_of_lt hsize64]
  have h₅ : check (decide (((List.range (numParts size cfg.partitionBytes)).map
      (cut size cfg.partitionBytes)).length = (keysFrom context.declaredKey
        (numParts size cfg.partitionBytes)).length)) = .ok () := check_eq (by simp)
  unfold initTensor
  rw [hinit]
  simp only [Bool.false_eq_true, if_false, hkeys, hcuts, hcompressors, h₁, h₂, h₃, h₄, h₅, bind,
    Except.bind]

end DeepInc.Worker
