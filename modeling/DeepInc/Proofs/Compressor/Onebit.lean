/-
What the packed signs of `OnebitCompressor` decompress to.

Compression takes the elements in groups of `w` and packs the signs of a group into one word.
Bit `w - 1 - j` of the word is the sign of its element `j`, since the packing loop shifts once
for every element after it.  Behind the words stands the scale, which is the mean of the
magnitudes, or one.

Decompression reads the words from the last element of each to the first, and looks at the
lowest bit of what is left.  What is left of a word when element `n` is reached is the word as
it was after element `n` was packed, so that the lowest bit is its sign.  An element comes back
as the scale with its sign, and the fused update subtracts just that.

The arithmetic is exact here, and the two buffers are apart.  What the conversions between
`float`, `double` and `half` make of the scale, and what decompression in place does to words
that have not been read yet, is in `OnebitScalar.lean`.
-/
import DeepInc.Compressor.Onebit
import Mathlib.Tactic.Ring

namespace DeepInc.Compressor.Onebit

variable {w : ℕ} {K : Type} [Field K]

/-- **The fused update subtracts what decompression gives.** -/
theorem fastUpdateError_eq (error corrected dst : Mem K) (data : Mem (Cell w K)) (size : ℕ) {n : ℕ}
    (hn : n < chunks w size * w) : fastUpdateError error corrected data size n =
      corrected n - decompress dst data size n := by
  unfold fastUpdateError decompress
  simp only [if_pos hn]
  push_cast
  ring

variable [LinearOrder K]

/-! ### Packing

A word is followed through the loop by its bits: after some steps the signs that were shifted in
stand at the low end, the last one lowest, and there are zeros above.
-/

theorem getLsbD_signWord (negative : Bool) {i : ℕ} (hi : i < w) :
    (signWord w negative).getLsbD i = (decide (i = 0) && negative) := by
  unfold signWord
  rw [BitVec.getLsbD_ofNat]
  cases negative with
  | false => simp
  | true =>
      rw [Bool.eq_iff_iff]
      simp [hi, Nat.testBit_one_eq_true_iff_self_eq_zero]

/-- The signs in a word, after some steps of the loop. -/
theorem getLsbD_packed (negative : ℕ → Bool) (base : ℕ) {j i : ℕ} (hi : i ≤ j) (hj : j < w) :
    (packed w negative base j).getLsbD i = negative (base + (j - i)) := by
  induction j generalizing i with
  | zero =>
      obtain rfl : i = 0 := by omega
      rw [packed, getLsbD_signWord _ hj]
      simp
  | succ j ih =>
      rw [packed, BitVec.getLsbD_or, BitVec.getLsbD_shiftLeft, getLsbD_signWord _ (by omega)]
      cases i with
      | zero => simp
      | succ i =>
          rw [show j + 1 - (i + 1) = j - i by omega, ← ih (by omega) (by omega)]
          simp [show i + 1 < w by omega]

/-- The lowest bit of a word, as a number. -/
theorem toNat_and_one (hw : 0 < w) (x : BitVec w) : (x &&& 1).toNat = (x.getLsbD 0).toNat := by
  rw [BitVec.toNat_and, show (1 : BitVec w).toNat = 1 from
    Nat.mod_eq_of_lt (Nat.one_lt_two_pow (by omega)), Nat.and_one_is_mod, BitVec.getLsbD,
    Nat.testBit_zero]
  rcases Nat.mod_two_eq_zero_or_one x.toNat with h | h <;> simp [h]

/-- What is left of a word when the sign of element `n` is reached, and the loop takes that sign. -/
theorem toNat_packed_and_one (hw : 0 < w) (negative : ℕ → Bool) (n : ℕ) :
    ((packed w negative (n / w * w) (w - 1) >>> (w - 1 - n % w)) &&& 1).toNat =
      (negative n).toNat := by
  have hmod : n % w < w := Nat.mod_lt n hw
  rw [toNat_and_one hw, BitVec.getLsbD_ushiftRight, Nat.add_zero,
    getLsbD_packed negative _ (by omega) (by omega),
    show n / w * w + (w - 1 - (w - 1 - n % w)) = n by
      have := Nat.div_add_mod' n w
      omega]

/-! ### Reading back

The number of words is not stored.  Decompression finds it from the size of the message, with
the scale taken off, and so it finds the scale behind the words.
-/

section Read

variable {useScale : Bool} {buf : Mem (Cell w K)} {src : Mem K} {len : ℕ}

/-- The words hold at least the elements. -/
theorem le_chunkLen (hw : 0 < w) (len : ℕ) : len ≤ chunkLen w len * w := by
  unfold chunkLen
  have hdvd : w ∣ len + (w - len % w) % w := by
    rw [Nat.dvd_iff_mod_eq_zero]
    have hlt := Nat.mod_lt len hw
    by_cases h0 : len % w = 0
    · rw [h0, Nat.sub_zero, Nat.mod_self, Nat.add_zero, h0]
    · rw [Nat.mod_eq_of_lt (show w - len % w < w by omega), Nat.add_mod,
        Nat.mod_eq_of_lt (show w - len % w < w by omega), Nat.add_sub_of_le (Nat.le_of_lt hlt),
        Nat.mod_self]
  rw [Nat.div_mul_cancel hdvd]
  exact Nat.le_add_right _ _

/-- The words in front of the scale. -/
theorem chunks_mul_add (hw : 8 ≤ w) (c : ℕ) : chunks w (c * sizeofIndex w + sizeofFloat) = c := by
  have hsize : 0 < sizeofIndex w := Nat.div_pos hw (by decide)
  unfold chunks
  rw [Nat.add_sub_cancel, Nat.mul_div_cancel _ hsize]

/-- Decompression finds the words that were written. -/
theorem chunks_compress (hw : 8 ≤ w) :
    chunks w (compress useScale buf src len).2 = chunkLen w len := chunks_mul_add hw _

/-- And the scale. -/
theorem asScalar_compress : ((compress useScale buf src len).1 (chunkLen w len)).asScalar =
    scale useScale src len := by
  simp [compress]

/-- And, of every element, its sign. -/
theorem signBit_compress (hw : 0 < w) {n : ℕ} (hn : n < chunkLen w len * w) :
    signBit (compress useScale buf src len).1 n = if src n < 0 then 1 else 0 := by
  have hword : (compress useScale buf src len).1 (n / w) =
      .index (packed w (fun n => decide (src n < 0)) (n / w * w) (w - 1)) :=
    if_pos ((Nat.div_lt_iff_lt_mul hw).mpr hn)
  unfold signBit
  rw [hword, Cell.asIndex_index, toNat_packed_and_one hw]
  by_cases hs : src n < 0 <;> simp [hs]

/--
**Decompression gives every element the scale, with its sign.**

A zero counts as positive, so that it comes back as the scale.
-/
theorem decompress_compress (hw : 8 ≤ w) (dst : Mem K) {n : ℕ} (hn : n < len) :
    decompress dst (compress useScale buf src len).1 (compress useScale buf src len).2 n =
      if src n < 0 then -scale useScale src len else scale useScale src len := by
  have hlt : n < chunkLen w len * w := Nat.lt_of_lt_of_le hn (le_chunkLen (by omega) len)
  unfold decompress
  simp only [chunks_compress hw, asScalar_compress, if_pos hlt, signBit_compress (by omega) hlt]
  split
  · norm_num
  · norm_num

end Read

end DeepInc.Compressor.Onebit
