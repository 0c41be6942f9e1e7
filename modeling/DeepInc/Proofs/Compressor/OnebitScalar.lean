/-
What `OnebitCompressor` gives back, in memory and as the machine rounds.

The loop of `DecompressImpl` runs backwards, over the words and over the signs of a word, and it
may write to where its input is.  What it writes are the values of the signs that were in the
words at its start: a word is read before its elements are written, and these lie behind the
words that are left, or over the word itself.  So the loops come down to one equation for every
place, whichever pieces of memory they work on.

An element is the sign, as an `int`, times the scale.  The product is the scale or its negative,
with nothing rounded, and becomes a `scalar_t`.  For `float` that is all, and for `double` too,
which has every `float`; `half_t` rounds it, and what is decompressed is not the scale that was
stored.
-/
import DeepInc.Compressor.OnebitScalar
import DeepInc.Proofs.Compressor.Onebit

namespace DeepInc.Compressor.Onebit

variable {w : ℕ} {t : ScalarType}

/-! ### The loops

`unpacked` is the value of a sign that has been shifted down to the end of its word.  The two
loops are read off in its terms, the inner one by what has been shifted out, the outer one by
what is still to be read. -/

/-- The value of the sign that is left in a word after `k` shifts. -/
def unpacked (t : ScalarType) (scale : Float32) (x : BitVec w) (k : ℕ) : Held w t :=
  .scalar (t.ofFloat (Float32.ofInt (1 - 2 * ((x >>> k) &&& 1).toNat) * scale))

/-- The loop over the signs of a word writes these values, and nothing else. -/
theorem unpackWord_eq (scale : Float32) (i n : ℕ) (x : BitVec w) (dst : Mem (Held w t)) (c : ℕ) :
    unpackWord scale i n x dst c =
      if i * w ≤ c ∧ c < i * w + n then unpacked t scale x (n - 1 - (c - i * w)) else dst c := by
  induction n generalizing x dst with
  | zero => exact (if_neg (by omega)).symm
  | succ n ih =>
      rw [unpackWord, ih]
      by_cases hlow : i * w ≤ c ∧ c < i * w + n
      · rw [if_pos hlow, if_pos (by omega)]
        unfold unpacked
        rw [← BitVec.shiftRight_add, show 1 + (n - 1 - (c - i * w)) = n + 1 - 1 - (c - i * w) by omega]
      · rw [if_neg hlow]
        by_cases hlast : c = i * w + n
        · rw [hlast, Function.update_self, if_pos (by omega)]
          unfold unpacked
          rw [show n + 1 - 1 - (i * w + n - i * w) = 0 by omega, BitVec.ushiftRight_zero]
        · rw [Function.update_of_ne hlast, if_neg (by omega)]

/-- The loop over the words writes what was in them at its start: it goes from the last on,
and writes behind the words that are left, even when it writes over them. -/
theorem unpackWords_eq (hw : 0 < w) (scale : Float32) (ptr dst : Place) (n : ℕ) (m : Memory w t)
    (c : ℕ) : unpackWords scale ptr dst n m dst c =
      if c < n * w then unpacked t scale (m ptr (c / w)).asIndex (w - 1 - c % w) else m dst c := by
  induction n generalizing m with
  | zero => exact (if_neg (by omega)).symm
  | succ n ih =>
      rw [unpackWords, ih]
      simp only [Function.update_self]
      have hsplit := Nat.div_add_mod' c w
      by_cases hlow : c < n * w
      · rw [if_pos hlow, if_pos (Nat.lt_of_lt_of_le hlow (Nat.mul_le_mul_right w (Nat.le_succ n)))]
        have hread : c / w < n := (Nat.div_lt_iff_lt_mul hw).mpr hlow
        have hkept : Function.update m dst (unpackWord scale n w (m ptr n).asIndex (m dst)) ptr (c / w)
            = m ptr (c / w) := by
          by_cases hptr : ptr = dst
          · rw [hptr, Function.update_self, unpackWord_eq, if_neg]
            have := Nat.le_mul_of_pos_right n hw
            omega
          · rw [Function.update_of_ne hptr]
        rw [hkept]
      · rw [if_neg hlow, unpackWord_eq, Nat.succ_mul]
        by_cases hword : c < n * w + w
        · have hdiv : c / w = n := Nat.div_eq_of_lt_le (by omega) (by rw [Nat.succ_mul]; omega)
          rw [hdiv] at hsplit
          rw [if_pos (by omega), if_pos hword, hdiv, show c - n * w = c % w by omega]
        · rw [if_neg (by omega), if_neg hword]

/-- Decompression reads what the tensor holds, wherever it writes to. -/
theorem decompressImpl_eq (hw : 8 ≤ w) (dst src : Place) (m : Memory w t) (size : ℕ) {n : ℕ}
    (hn : n < chunks w size * w) : decompressImpl dst src m size dst n =
      unpacked t (m src (chunks w size)).asScale (m src (n / w)).asIndex (w - 1 - n % w) := by
  have hread : n / w < chunks w size := (Nat.div_lt_iff_lt_mul (by omega)).mpr hn
  unfold decompressImpl
  by_cases hplace : dst = src
  · have hcopy : n / w < size / sizeofIndex w :=
      Nat.lt_of_lt_of_le hread (Nat.div_le_div_right (Nat.sub_le _ _))
    simp only [if_pos hplace]
    rw [unpackWords_eq (by omega), if_pos hn, Function.update_self]
    unfold memcpy
    rw [if_pos hcopy]
  · simp only [if_neg hplace]
    rw [unpackWords_eq (by omega), if_pos hn]

/-! ### Both -/

section Both

variable {useScale : Bool} {buf : Mem (Held w t)} {grad : Mem t.carrier} {len : ℕ}
  {m : Memory w t} {dst src : Place}

/-- Decompression finds the words that were written. -/
theorem chunks_compressImpl (hw : 8 ≤ w) :
    chunks w (compressImpl useScale buf grad len).2 = chunkLen w len := chunks_mul_add hw _

/-- And the scale behind them. -/
theorem asScale_compressImpl (hw : 8 ≤ w) (hsrc : m src = (compressImpl useScale buf grad len).1) :
    (m src (chunks w (compressImpl useScale buf grad len).2)).asScale =
      if useScale then mean grad len else 1 := by
  rw [chunks_compressImpl hw, hsrc]
  simp [compressImpl, Held.asScale]

/-- A sign that was packed is unpacked as the scale with that sign. -/
theorem unpacked_compressImpl (hw : 0 < w) (scale : Float32) {n : ℕ} (hn : n < chunkLen w len * w) :
    unpacked t scale ((compressImpl useScale buf grad len).1 (n / w)).asIndex (w - 1 - n % w) =
      .scalar (t.ofFloat (if t.isNegative (grad n) then -scale else scale)) := by
  have hword : (compressImpl useScale buf grad len).1 (n / w) =
      .index (packed w (fun n => t.isNegative (grad n)) (n / w * w) (w - 1)) :=
    if_pos ((Nat.div_lt_iff_lt_mul hw).mpr hn)
  unfold unpacked
  rw [hword, Held.asIndex, toNat_packed_and_one hw]
  cases t.isNegative (grad n) with
  | false =>
      show Held.scalar (t.ofFloat (Float32.ofInt 1 * scale)) = _
      rw [FloatModel.ofInt_one_mul]
      rfl
  | true =>
      show Held.scalar (t.ofFloat (Float32.ofInt (-1) * scale)) = _
      rw [FloatModel.ofInt_neg_one_mul]
      rfl

/-- Every element comes back as the scale that was stored, with its sign. -/
theorem decompressImpl_of_lt (hw : 8 ≤ w) (hsrc : m src = (compressImpl useScale buf grad len).1)
    {i : ℕ} (hi : i < len) :
    decompressImpl dst src m (compressImpl useScale buf grad len).2 dst i =
      .scalar (t.ofFloat (if t.isNegative (grad i)
        then -(m src (chunks w (compressImpl useScale buf grad len).2)).asScale
        else (m src (chunks w (compressImpl useScale buf grad len).2)).asScale)) := by
  have hn : i < chunkLen w len * w := Nat.lt_of_lt_of_le hi (le_chunkLen (by omega) len)
  rw [decompressImpl_eq hw dst src m _ (by rw [chunks_compressImpl hw]; exact hn)]
  generalize (m src (chunks w (compressImpl useScale buf grad len).2)).asScale = scale
  rw [hsrc]
  exact unpacked_compressImpl (by omega) scale hn

end Both

/--
**The signs come back, with the stored scale as a `scalar_t`**, wherever the tensor lies.  The
output of `CompressImpl` may be anywhere, and be decompressed to where it is or to another place.
-/
theorem decompressImpl_compressImpl (dtype : DataType) (len : ℕ) (useScale : Bool)
    (buf : Mem (Held (scalarBits dtype) (scalarType dtype))) (grad : Mem (scalarType dtype).carrier)
    (m : Memory (scalarBits dtype) (scalarType dtype)) (dst src : Place)
    (hsrc : m src = (compressImpl useScale buf grad len).1) :
    let size := (compressImpl useScale buf grad len).2
    let scale := (m src (chunks (scalarBits dtype) size)).asScale
    (∀ i < len, decompressImpl dst src m size dst i = .scalar ((scalarType dtype).ofFloat
      (if (scalarType dtype).isNegative (grad i) then -scale else scale))) ∧
      scale = if useScale then mean grad len else 1 := by
  have hw := eight_le_scalarBits dtype
  exact ⟨fun i hi => decompressImpl_of_lt hw hsrc hi, asScale_compressImpl hw hsrc⟩

/-- The halves 1, 2 and -2. -/
def threeHalves : Mem (BitVec 16) := fun i => if i = 0 then 0x3C00 else if i = 1 then 0x4000 else 0xC000

/-- What they are compressed to. -/
def threeHalvesTensor : Mem (Held 16 half) × ℕ := compressImpl true (fun _ => .index 0) threeHalves 3

/-- It is the data of a tensor. -/
def threeHalvesMemory : Memory 16 half := fun _ => threeHalvesTensor.1

/-- Decompressed to where they are, with their mean. -/
theorem decompressImpl_compressImpl_halves :
    let scale := (threeHalvesMemory .data (chunks 16 threeHalvesTensor.2)).asScale
    (∀ i < 3, decompressImpl .data .data threeHalvesMemory threeHalvesTensor.2 .data i =
      .scalar (half.ofFloat (if half.isNegative (threeHalves i) then -scale else scale))) ∧
      scale = mean (t := half) threeHalves 3 :=
  decompressImpl_compressImpl .float16 3 true (fun _ => .index 0) threeHalves threeHalvesMemory .data
    .data rfl

/-- The mean is no `half_t`: what comes back is not the scale that was stored. -/
theorem half_scale_rounded :
    let scale := (threeHalvesMemory .data (chunks 16 threeHalvesTensor.2)).asScale
    ¬∀ i < 3, ∃ h : BitVec 16,
      decompressImpl .other .data threeHalvesMemory threeHalvesTensor.2 .other i = .scalar h ∧
        halfToFloat h = if half.isNegative (threeHalves i) then -scale else scale := by
  intro scale h
  obtain ⟨x, hx, hvalue⟩ := h 0 (by decide)
  have hmean : mean (t := half) threeHalves 3 = .ofBits 0x3FD55555 := by decide +kernel
  have hscale : scale = .ofBits 0x3FD55555 :=
    (asScale_compressImpl (t := half) (by decide) rfl).trans hmean
  have hsign : half.isNegative (threeHalves 0) = false := by decide +kernel
  have hrounded : halfToFloat (half.ofFloat (.ofBits 0x3FD55555)) ≠ .ofBits 0x3FD55555 := by
    decide +kernel
  have hfirst : decompressImpl .other .data threeHalvesMemory threeHalvesTensor.2 .other 0 =
      .scalar (half.ofFloat (if half.isNegative (threeHalves 0) then -scale else scale)) :=
    decompressImpl_of_lt (t := half) (by decide) rfl (by decide)
  rw [hsign, if_neg Bool.false_ne_true] at hfirst hvalue
  have hvalues : half.ofFloat scale = x := Held.scalar.inj (hfirst.symm.trans hx)
  rw [← hvalues, hscale] at hvalue
  exact hrounded hvalue

end DeepInc.Compressor.Onebit
