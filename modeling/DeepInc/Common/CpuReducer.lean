/-
Copies and sums on the CPU.

A buffer is read by element, and the loops of `CpuReducer` run over the elements
that fit in `len` bytes; elements beyond them keep what they hold.
-/
import DeepInc.Common.DataType
import DeepInc.Lib.InPlace
import Mathlib.Algebra.Group.Defs

namespace DeepInc

/-- What the memory behind a `char *` holds, by element. -/
abbrev Mem (α : Type) := ℕ → α

namespace CpuReducer

variable {α : Type}

/-- `CpuReducer::copy`. -/
def copy (dst src : Mem α) (len : ℕ) (dtype : DataType) : Mem α :=
  fun i => if i < len / getDataTypeLength dtype then src i else dst i

/-- `CpuReducer::sum`, whose switch has a case for every data type. -/
def sum [Add α] (dst src : Mem α) (len : ℕ) (dtype : DataType) : Mem α :=
  fun i => if i < len / getDataTypeLength dtype then dst i + src i else dst i

theorem copy_lt {dst src : Mem α} {len i : ℕ} {dtype : DataType}
    (h : i < len / getDataTypeLength dtype) : copy dst src len dtype i = src i := if_pos h

theorem sum_lt [Add α] {dst src : Mem α} {len i : ℕ} {dtype : DataType}
    (h : i < len / getDataTypeLength dtype) : sum dst src len dtype i = dst i + src i := if_pos h

/-! ### Scaled sums -/

section Pointers

variable {ρ : Type} [DecidableEq ρ] [Add α] [Mul α]

/-- `_sum(dst, src, len, alpha)`; the pointers may be the same. -/
def sumScaled (m : ρ → Mem α) (dst src : ρ) (len : ℕ) (dtype : DataType) (alpha : α) : ρ → Mem α :=
  InPlace.loop dst (fun x => x dst + alpha * x src) (List.range (len / getDataTypeLength dtype)) m

/-- `_sum(dst, src1, src2, len, alpha)`; the pointers may be the same. -/
def sumOfScaled (m : ρ → Mem α) (dst src1 src2 : ρ) (len : ℕ) (dtype : DataType) (alpha : α) :
    ρ → Mem α :=
  InPlace.loop dst (fun x => x src1 + alpha * x src2) (List.range (len / getDataTypeLength dtype)) m

theorem sumScaled_apply (m : ρ → Mem α) (dst src : ρ) (len : ℕ) (dtype : DataType) (alpha : α)
    (p : ρ) (i : ℕ) : sumScaled m dst src len dtype alpha p i =
      if p = dst ∧ i < len / getDataTypeLength dtype then m dst i + alpha * m src i else m p i := by
  unfold sumScaled
  simp only [InPlace.loop_apply _ _ List.nodup_range, List.mem_range]
  rfl

theorem sumOfScaled_apply (m : ρ → Mem α) (dst src1 src2 : ρ) (len : ℕ) (dtype : DataType)
    (alpha : α) (p : ρ) (i : ℕ) : sumOfScaled m dst src1 src2 len dtype alpha p i =
      if p = dst ∧ i < len / getDataTypeLength dtype then m src1 i + alpha * m src2 i else m p i := by
  unfold sumOfScaled
  simp only [InPlace.loop_apply _ _ List.nodup_range, List.mem_range]
  rfl

end Pointers

end CpuReducer

end DeepInc
