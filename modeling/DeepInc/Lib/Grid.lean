/-
Numbers in rows and columns.

The elements of a set that share a label make a partition, with as many parts as there are
labels.  Numbers that share their quotient by a width are a row, those that share their remainder
are a column; a row and a column have one number in common, and the remainder counts the numbers
of a row.
-/
import Mathlib.Data.Nat.ModEq
import Mathlib.Order.Partition.Finpartition
import Mathlib.Order.Interval.Set.Defs

namespace Grid

/-! ### Labels -/

section Labels

variable {α β : Type} [DecidableEq α] [DecidableEq β] (s : Finset α) (f : α → β)

/-- The elements with the label of `a`. -/
def part (a : α) : Finset α := s.filter fun b => f a = f b

/-- The sets of elements that share a label. -/
def parts : Finpartition s := Finpartition.ofSetSetoid (Setoid.ker f) s

theorem parts_eq : (parts s f).parts = s.image (part s f) := rfl

/-- There are as many as labels. -/
theorem card_parts : (parts s f).parts.card = (s.image f).card := by
  have himage : s.image (part s f) = (s.image f).image fun v => s.filter fun b => v = f b := by
    rw [Finset.image_image]
    rfl
  rw [parts_eq, himage]
  refine Finset.card_image_of_injOn fun v hv v' _ h => ?_
  obtain ⟨a, ha, rfl⟩ := Finset.mem_image.mp hv
  have hmem : a ∈ s.filter fun b => f a = f b := Finset.mem_filter.mpr ⟨ha, rfl⟩
  rw [h] at hmem
  exact (Finset.mem_filter.mp hmem).2.symm

end Labels

/-! ### Rows and columns -/

variable {width height : ℕ}

/-- The number in a row and a column. -/
theorem div_cell {c : ℕ} (hc : c < width) (q : ℕ) : (width * q + c) / width = q := by
  rw [Nat.mul_add_div (by omega), Nat.div_eq_of_lt hc, Nat.add_zero]

theorem mod_cell {c : ℕ} (hc : c < width) (q : ℕ) : (width * q + c) % width = c := by
  rw [Nat.mul_add_mod, Nat.mod_eq_of_lt hc]

theorem image_div (hwidth : 0 < width) :
    (Finset.range (width * height)).image (· / width) = Finset.range height := by
  ext q
  simp only [Finset.mem_image, Finset.mem_range]
  constructor
  · rintro ⟨k, hk, rfl⟩
    exact Nat.div_lt_of_lt_mul hk
  · intro hq
    exact ⟨width * q, Nat.mul_lt_mul_of_pos_left hq hwidth, Nat.mul_div_cancel_left q hwidth⟩

theorem image_mod (hwidth : 0 < width) (hheight : 0 < height) :
    (Finset.range (width * height)).image (· % width) = Finset.range width := by
  ext c
  simp only [Finset.mem_image, Finset.mem_range]
  constructor
  · rintro ⟨k, _, rfl⟩
    exact Nat.mod_lt k hwidth
  · intro hc
    exact ⟨c, hc.trans_le (Nat.le_mul_of_pos_right width hheight), Nat.mod_eq_of_lt hc⟩

/-- A row and a column have one number in common. -/
theorem existsUnique_cell {q c : ℕ} (hq : q < height) (hc : c < width) :
    ∃! k, k < width * height ∧ k / width = q ∧ k % width = c := by
  refine ⟨width * q + c, ⟨?_, div_cell hc q, mod_cell hc q⟩, ?_⟩
  · have := Nat.mul_le_mul_left width (show q + 1 ≤ height from hq)
    rw [Nat.mul_succ] at this
    omega
  · rintro k ⟨_, rfl, rfl⟩
    exact (Nat.div_add_mod k width).symm

/-- The remainder counts the numbers of a row. -/
theorem bijOn_mod (hwidth : 0 < width) (q : ℕ) :
    Set.BijOn (· % width) {k | k / width = q} (Set.Iio width) := by
  refine ⟨fun k _ => Nat.mod_lt k hwidth, fun k hk k' hk' h => ?_, fun c hc => ?_⟩
  · have hdiv : k / width = k' / width := hk.trans hk'.symm
    have hmod : k % width = k' % width := h
    rw [← Nat.div_add_mod k width, hdiv, hmod, Nat.div_add_mod]
  · exact ⟨width * q + c, div_cell hc q, mod_cell hc q⟩

end Grid
