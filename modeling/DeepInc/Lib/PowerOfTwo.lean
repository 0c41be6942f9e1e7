/-
Powers of two from the bits of a number.

Every bit of a number is copied to all bits below it by shifts of one, two, four and so on:
what is left has ones up to the highest bit, and the next number is a power of two.
-/
import Mathlib.Algebra.Order.Ring.Nat
import Mathlib.Data.Nat.Size
import Mathlib.Order.Bounds.Defs

namespace PowerOfTwo

/-- Every bit of `u` is copied to the `m` bits from it on downwards. -/
def Smeared (u m y : ℕ) : Prop := ∀ i, y.testBit i ↔ ∃ j < m, u.testBit (i + j)

variable {u m y v : ℕ}

theorem smeared_self (u : ℕ) : Smeared u 1 u := by
  intro i
  constructor
  · exact fun h => ⟨0, Nat.one_pos, h⟩
  · rintro ⟨j, hj, h⟩
    rwa [Nat.lt_one_iff.mp hj, Nat.add_zero] at h

/-- A shift by `m` reaches twice as far. -/
theorem Smeared.double (h : Smeared u m y) : Smeared u (2 * m) (y ||| y >>> m) := by
  intro i
  rw [Nat.testBit_or, Nat.testBit_shiftRight, Bool.or_eq_true, h i, h (m + i)]
  constructor
  · rintro (⟨j, hj, hbit⟩ | ⟨j, hj, hbit⟩)
    · exact ⟨j, by omega, hbit⟩
    · exact ⟨m + j, by omega, by rwa [show i + (m + j) = m + i + j by omega]⟩
  · rintro ⟨j, hj, hbit⟩
    by_cases hlt : j < m
    · exact .inl ⟨j, hlt, hbit⟩
    · exact .inr ⟨j - m, by omega, by rwa [show m + i + (j - m) = i + j by omega]⟩

/-- Once every bit has reached the lowest, all bits up to the highest are ones. -/
theorem Smeared.eq (h : Smeared u m y) (hu : u < 2 ^ m) : y = 2 ^ u.size - 1 := by
  refine Nat.eq_of_testBit_eq fun i => ?_
  rw [Nat.testBit_two_pow_sub_one, Bool.eq_iff_iff, h i, decide_eq_true_iff, Nat.lt_size]
  constructor
  · rintro ⟨j, _, hbit⟩
    exact (Nat.pow_le_pow_right Nat.two_pos (Nat.le_add_right i j)).trans
      (Nat.ge_two_pow_of_testBit hbit)
  · intro hle
    obtain ⟨k, hk, hbit⟩ := Nat.exists_ge_and_testBit_of_ge_two_pow hle
    have hlt : 2 ^ k < 2 ^ m := (Nat.ge_two_pow_of_testBit hbit).trans_lt hu
    have hkm : k < m := (Nat.pow_lt_pow_iff_right Nat.one_lt_two).mp hlt
    exact ⟨k - i, by omega, by rwa [Nat.add_sub_cancel' hk]⟩

/-- The least power of two that is no less than `v` has as many zeros as `v - 1` has bits. -/
theorem isLeast_two_pow_size (hv : 1 ≤ v) :
    IsLeast {n | v ≤ n ∧ ∃ k, n = 2 ^ k} (2 ^ (v - 1).size) := by
  constructor
  · have := Nat.lt_size_self (v - 1)
    exact ⟨by omega, _, rfl⟩
  · rintro n ⟨hle, k, rfl⟩
    exact Nat.pow_le_pow_right Nat.two_pos (Nat.size_le.mpr (by omega))

end PowerOfTwo
