/-
When the block of a tensor has room for it.

A length is rounded up to whole packed words, by `Align`, and then to whole pages, by `RoundUp`.
`Align` computes with `size_t`, but `RoundUp` of the server takes and returns an `int`, so that
the packed words are converted, the sum of a page and of them has to be an `int`, and the number
of pages times their size has to be one as well.

As long as the sum of a page and of the packed words is an `int`, `RoundUp` is what it is on
numbers: the block is a multiple of a page, and holds the packed words.  When the sum is not an
`int`, the result is no number of bytes at all, so that the condition is exact.

In terms of the length of a tensor the longest ones are too long, by a page and a packed word.
-/
import DeepInc.Proofs.Server.Requests
import DeepInc.Proofs.Worker.KeyEncoding
import DeepInc.Server.Allocation

namespace DeepInc.Server

open State
open DeepInc.Worker (toInt32 toInt32_of_lt)

/-! ### Arithmetic on `int`

An overflow of an `int` is undefined, and `none` here.  Division rounds towards zero, which for
numbers that are not negative is the division of `ℕ`.
-/

theorem signed_eq {n : ℤ} (h : -2 ^ 31 ≤ n) (h' : n < 2 ^ 31) : signed n = some n := if_pos ⟨h, h'⟩

theorem signed_eq_some {n k : ℤ} (h : signed n = some k) : k = n ∧ -2 ^ 31 ≤ n ∧ n < 2 ^ 31 := by
  unfold signed at h
  split at h
  · rename_i hbounds
    exact ⟨(Option.some.inj h).symm, hbounds⟩
  · cases h

section Round

variable {size pageSize : ℕ}

/-- Nothing overflows when the sum of both is an `int`. -/
theorem sizeAligned_eq (hpage : 0 < pageSize) (h : size + pageSize < 2 ^ 31) :
    sizeAligned size pageSize = some ((roundUp size pageSize : ℕ) : ℤ) := by
  obtain ⟨n, hn⟩ : ∃ n, (size + pageSize - 1) / pageSize = n := ⟨_, rfl⟩
  have hle : n ≤ size + pageSize - 1 := hn ▸ Nat.div_le_self _ _
  have hround : n * pageSize ≤ size + pageSize - 1 := hn ▸ Nat.div_mul_le_self _ _
  have hdivUp : divUp size pageSize = some (n : ℤ) := by
    have hquotient : ((size : ℤ) + pageSize - 1).tdiv pageSize = n := by
      rw [← hn, show (size : ℤ) + pageSize - 1 = (size + pageSize - 1 : ℕ) by omega]
      rfl
    unfold divUp
    rw [signed_eq (by omega) (by omega), Option.bind_eq_bind, Option.bind_some,
      signed_eq (by omega) (by omega), Option.bind_some, if_neg (by omega), hquotient,
      signed_eq (by omega) (by omega)]
  unfold sizeAligned roundUpInt
  rw [toInt32_of_lt (by omega), toInt32_of_lt (by omega), hdivUp, Option.bind_eq_bind,
    Option.bind_some, ← Nat.cast_mul, signed_eq (by omega) (by omega)]
  unfold roundUp
  rw [hn]

/-- And then only. -/
theorem add_lt_of_sizeAligned (hsize : toInt32 size = size) (hpage : toInt32 pageSize = pageSize)
    {n : ℤ} (h : sizeAligned size pageSize = some n) : size + pageSize < 2 ^ 31 := by
  unfold sizeAligned roundUpInt divUp at h
  rw [hsize, hpage] at h
  obtain ⟨_, hquotient, _⟩ := Option.bind_eq_some_iff.mp h
  obtain ⟨sum, hsum, _⟩ := Option.bind_eq_some_iff.mp hquotient
  have hlt := (signed_eq_some hsum).2.2
  exact_mod_cast hlt

theorem dvd_roundUp (size pageSize : ℕ) : pageSize ∣ roundUp size pageSize := Nat.dvd_mul_left _ _

end Round

/-! ### The block of a tensor

`HasRoom` is what the rest of the server takes for granted: the block holds whole packed words,
so that kernels may read to the end of the last one, and it holds whole pages.
-/

/-- The bytes `Align` rounds up to. -/
def minSize (dtype : DataType) : ℕ := getDataTypeLength dtype * getDataTypeLength dtype * 8

theorem minSize_dvd (dtype : DataType) : minSize dtype ∣ 512 := by cases dtype <;> decide

/-- Less than a whole number of packed words is at least one less. -/
theorem align_lt_iff (dtype : DataType) {len n : ℕ} (hn : minSize dtype ∣ n) :
    align len dtype < n ↔ len + minSize dtype ≤ n := by
  obtain ⟨c, rfl⟩ := hn
  unfold align minSize
  cases dtype <;>
  · simp only [getDataTypeLength]
    omega

/-- What is asked of the block a tensor of `len` bytes is stored in. -/
structure HasRoom (len : ℕ) (dtype : DataType) (pageSize : ℕ) : Prop where
  /-- the arguments of `RoundUp` are what they were as `size_t` -/
  size_eq : toInt32 (align len dtype) = align len dtype
  pageSize_eq : toInt32 pageSize = pageSize
  /-- nothing overflows, and `memset` and the elements of the tensor stay in the block -/
  block : ∃ n : ℕ, sizeAligned (align len dtype) pageSize = some (n : ℤ) ∧ pageSize ∣ n ∧
    align len dtype ≤ n ∧ len ≤ n ∧
    ∀ i < len / getDataTypeLength dtype, (i + 1) * getDataTypeLength dtype ≤ n

theorem hasRoom_iff_add_lt {len pageSize : ℕ} {dtype : DataType} (hpage : 0 < pageSize) :
    HasRoom len dtype pageSize ↔ align len dtype + pageSize < 2 ^ 31 := by
  constructor
  · intro h
    obtain ⟨n, hn, _⟩ := h.block
    exact add_lt_of_sizeAligned h.size_eq h.pageSize_eq hn
  · intro h
    have hle : align len dtype ≤ roundUp (align len dtype) pageSize := le_roundUp _ hpage
    have hlen : len ≤ align len dtype := Nat.le_add_right _ _
    refine ⟨toInt32_of_lt (by omega), toInt32_of_lt (by omega), _, sizeAligned_eq hpage h,
      dvd_roundUp _ _, hle, hlen.trans hle, fun i hi => ?_⟩
    calc (i + 1) * getDataTypeLength dtype
        ≤ len / getDataTypeLength dtype * getDataTypeLength dtype := Nat.mul_le_mul_right _ hi
      _ ≤ len := Nat.div_mul_le_self _ _
      _ ≤ _ := hlen.trans hle

/-- A block is only found where there is room. -/
theorem hasRoom_of_pageAlignedMalloc {α κ : Type} {s s' : State α κ} {len : ℕ} {dtype : DataType}
    (h : s.pageAlignedMalloc (align len dtype) = .ok s') : HasRoom len dtype pageSize := by
  have hok : memalignOk s.allocated (align len dtype) = true := by
    unfold State.pageAlignedMalloc check at h
    by_contra hfails
    rw [if_neg hfails] at h
    cases h
  unfold memalignOk at hok
  rw [Bool.and_eq_true, decide_eq_true_iff] at hok
  exact (hasRoom_iff_add_lt (by decide)).mpr hok.1

/--
**There is room for a tensor that is a page and a packed word shorter than an `int` can be.**

The block is asked for by an `int`, and so is the sum it is computed from.
-/
theorem hasRoom_iff {len pageSize : ℕ} (hlen : 1 ≤ len) (dtype : DataType)
    (hpage : ∃ k, pageSize = 2 ^ k) (hpage' : 512 ≤ pageSize) :
    HasRoom len dtype pageSize ↔ len + minSize dtype + pageSize ≤ 2 ^ 31 := by
  rw [hasRoom_iff_add_lt (by omega)]
  rcases Nat.lt_or_ge pageSize (2 ^ 31) with hlt | hge
  · obtain ⟨k, rfl⟩ := hpage
    have hk : 9 ≤ k := (Nat.pow_le_pow_iff_right (by decide)).mp (show 2 ^ 9 ≤ 2 ^ k from hpage')
    have hdvd : 512 ∣ 2 ^ k := pow_dvd_pow 2 hk
    have hrest : minSize dtype ∣ 2 ^ 31 - 2 ^ k :=
      (minSize_dvd dtype).trans (Nat.dvd_sub (by decide) hdvd)
    have hiff : align len dtype < 2 ^ 31 - 2 ^ k ↔ len + minSize dtype ≤ 2 ^ 31 - 2 ^ k :=
      align_lt_iff dtype hrest
    omega
  · omega

/-- A page of 4096 bytes, and ten bytes. -/
theorem hasRoom_iff_ten : HasRoom 10 .float32 4096 :=
  (hasRoom_iff (by decide) .float32 ⟨12, rfl⟩ (by decide)).mpr (by decide)

/-- The longest tensor: its packed words are no `int`. -/
theorem longest_has_no_room : ¬HasRoom (2 ^ 31 - 1) .float32 4096 := by
  intro h
  exact absurd ((hasRoom_iff_add_lt (by decide)).mp h) (by decide)

end DeepInc.Server
