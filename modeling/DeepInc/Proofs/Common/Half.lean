/-
What the conversions of `half_t` compute, and that they are those of `CpuReducer`.

The repository has two pairs of conversions between `half` and `float`.  Those of `CpuReducer`
go through the fields of a number one by one.  Those of `half_t` compare the pattern as one
integer and leave the rounding to a carry, and on the way back to `float` they choose by masks
in place of branches.

Adding half of the last bit that is kept carries into it exactly when a number is to be rounded
up, unless what is cut off is just that half and the last bit is even; the bits a subnormal
number loses before are looked at apart.  So exponent and fraction of the result are those of
the rounding in `Proofs/Common/HalfFloat.lean`, and on numbers the two pairs of conversions are
the same functions.

On NaNs they are not.  Those of `half_t` keep the fraction of a NaN as far as there is room for
it, so that every pattern of a `half` survives the way to `float` and back.
-/
import DeepInc.Common.Half
import DeepInc.Lib.FloatModel
import DeepInc.Proofs.Common.HalfFloat

namespace DeepInc.Half

open Binary Binary.Format CpuReducer

/-! ### Patterns as integers

The comparisons are of signed integers, but of patterns without a sign, whose order is that of
natural numbers.  A mask that takes the sign out or puts it in again changes no other bit.
-/

theorem sle_iff {v c : BitVec 32} (hv : v.toNat < 2 ^ 31) (hc : c.toNat < 2 ^ 31) :
    v.sle c = true ↔ v.toNat ≤ c.toNat := by
  rw [BitVec.sle_iff_toInt_le, BitVec.toInt_eq_toNat_of_lt (by omega),
    BitVec.toInt_eq_toNat_of_lt (by omega), Nat.cast_le]

theorem slt_iff {v c : BitVec 32} (hv : v.toNat < 2 ^ 31) (hc : c.toNat < 2 ^ 31) :
    v.slt c = true ↔ v.toNat < c.toNat := by
  rw [BitVec.slt_iff_toInt_lt, BitVec.toInt_eq_toNat_of_lt (by omega),
    BitVec.toInt_eq_toNat_of_lt (by omega), Nat.cast_lt]

/-- A bit that is taken out with the sign. -/
theorem xor_and_eq (v m : BitVec 32) : v ^^^ (v &&& m) = v &&& ~~~m := by
  ext i hi
  simp only [BitVec.getElem_xor, BitVec.getElem_and, BitVec.getElem_not]
  cases v[i] <;> cases m[i] <;> rfl

/-! ### To `half`

There are four cases by the pattern without its sign: it is too small for any `half` but zero,
it is below the normal ones, it has an exponent of a `half`, or it is beyond them.  The
subnormal case shifts before it rounds, so the bits this shift loses have to be asked for in the
significand.
-/

section ToHalf

variable (s : BitVec 32)

theorem abs_toNat : (s ^^^ (s &&& signN)).toNat = single.rest s.toNat := by
  rw [xor_and_eq]
  exact rest_toNat s

theorem rest_lt : single.rest s.toNat < 2 ^ 31 := Nat.mod_lt _ (by decide)

/-- Sign, and what the last shift leaves. -/
theorem float2half_toNat : (float2half s).toNat = single.signBit s.toNat * 2 ^ 15 +
    (roundMagnitude (s ^^^ (s &&& signN))).toNat / 2 ^ 13 % 2 ^ 15 := by
  have hsign : ((s &&& signN) >>> shiftSign).toNat = single.signBit s.toNat * 2 ^ 15 := by
    rw [toNat_ushiftRight_eq_div, toNat_and_bit (k := 31) rfl]
    show s.toNat / 2 ^ 31 % 2 * 2 ^ 31 / 2 ^ 16 = s.toNat / 2 ^ 31 % 2 * 2 ^ 15
    omega
  have hlt := single.signBit_lt s.toNat
  have hmod := Nat.mod_lt ((roundMagnitude (s ^^^ (s &&& signN))).toNat / 2 ^ 13)
    (show 0 < 2 ^ 15 by decide)
  unfold float2half
  dsimp only
  rw [BitVec.toNat_setWidth, BitVec.toNat_or, hsign, toNat_and_mask (k := 15) rfl,
    toNat_ushiftRight_eq_div, show shift = 13 from rfl, or_eq_add hmod]
  omega

/-- A `float` with an exponent that a `half` has. -/
theorem roundMagnitude_normal {v : BitVec 32} (hlo : 113 * 2 ^ 23 ≤ v.toNat)
    (hhi : v.toNat < 143 * 2 ^ 23) : (roundMagnitude v).toNat =
      v.toNat + (if v.toNat % 2 ^ 14 ≠ 2 ^ 12 then 2 ^ 12 else 0) - 112 * 2 ^ 23 := by
  have hlt : v.toNat < 2 ^ 31 := by omega
  have htie : v &&& 0x3fff ≠ 0x1000 ↔ v.toNat % 2 ^ 14 ≠ 2 ^ 12 := by
    rw [ne_eq, ← BitVec.toNat_inj, toNat_and_mask (k := 14) rfl]
    rfl
  have hadd : (v + if v &&& 0x3fff ≠ 0x1000 then 0x1000 else 0).toNat =
      v.toNat + if v.toNat % 2 ^ 14 ≠ 2 ^ 12 then 2 ^ 12 else 0 := by
    rw [BitVec.toNat_add]
    by_cases h : v.toNat % 2 ^ 14 ≠ 2 ^ 12
    · rw [if_pos (htie.mpr h), if_pos h, show (0x1000 : BitVec 32).toNat = 2 ^ 12 from rfl]
      omega
    · rw [if_neg (htie.not.mpr h), if_neg h, show (0 : BitVec 32).toNat = 0 from rfl]
      omega
  unfold roundMagnitude
  rw [if_neg ((sle_iff hlt (by decide)).not.mpr (by show ¬v.toNat ≤ 102 * 2 ^ 23; omega)),
    if_neg ((slt_iff hlt (by decide)).not.mpr (by show ¬v.toNat < 113 * 2 ^ 23; omega)),
    if_pos ((sle_iff hlt (by decide)).mpr (by show v.toNat ≤ 143 * 2 ^ 23 - 1; omega))]
  dsimp only
  rw [BitVec.toNat_sub, hadd, show (expAdjust <<< fp32FractionBits).toNat = 112 * 2 ^ 23 from rfl]
  split <;> omega

theorem halves_normal (hlo : 113 ≤ biased s) (hhi : biased s ≤ 142) : Halves s (float2half s) := by
  have hM := fraction_lt s
  have hrest := rest_eq s
  have hv := abs_toNat s
  have hround := roundMagnitude_normal (v := s ^^^ (s &&& signN)) (by omega) (by omega)
  have hrounds := roundsEven_significand (N := 2 ^ 23 + s.toNat % 2 ^ 23) (E := biased s - 1)
    (k := 12) (e := biased s - 113) (u := (biased s - 112) * 2 ^ 10 + s.toNat % 2 ^ 23 / 2 ^ 13)
    (by omega) (by omega) (by omega) (by omega)
  rw [← absValue_normal s (by omega)] at hrounds
  refine halves_of_toNat s (float2half_toNat s) ?_ ?_
  · rw [hround, hv, hrest]
    split <;> omega
  · refine (congrArg (RoundsEven half.absValue _) ?_).mpr hrounds
    rw [hround, hv, hrest]
    split <;> split <;> omega

/-- A `float` below the normal numbers of a `half`, of which `r` more bits are cut off. -/
theorem roundMagnitude_subnormal {v : BitVec 32} {r : ℕ} (hr : v.toNat / 2 ^ 23 + r = 113)
    (hr₁ : 1 ≤ r) (hlo : 102 * 2 ^ 23 < v.toNat) : (roundMagnitude v).toNat =
      (2 ^ 23 + v.toNat % 2 ^ 23) / 2 ^ r +
        if (2 ^ 23 + v.toNat % 2 ^ 23) / 2 ^ r % 2 ^ 14 ≠ 2 ^ 12 ∨
          (2 ^ 23 + v.toNat % 2 ^ 23) % 2 ^ 11 ≠ 0 then 2 ^ 12 else 0 := by
  have hlt : v.toNat < 113 * 2 ^ 23 := by omega
  have hN : (fp32HiddenBit ||| (v &&& fp32FractionMask)).toNat = 2 ^ 23 + v.toNat % 2 ^ 23 := by
    rw [BitVec.toNat_or, toNat_and_mask (k := 23) rfl]
    exact or_eq_add (a := 1) (Nat.mod_lt _ (show 0 < 2 ^ 23 by decide))
  have hshift : (1 - (v >>> fp32FractionBits - expAdjust)).toNat = r := by
    rw [BitVec.toNat_sub, BitVec.toNat_sub, toNat_ushiftRight_eq_div,
      show expAdjust.toNat = 112 from rfl, show (1 : BitVec 32).toNat = 1 from rfl,
      show fp32FractionBits = 23 from rfl]
    omega
  have hkept : ((fp32HiddenBit ||| (v &&& fp32FractionMask)) >>>
      (1 - (v >>> fp32FractionBits - expAdjust))).toNat = (2 ^ 23 + v.toNat % 2 ^ 23) / 2 ^ r := by
    rw [BitVec.ushiftRight_eq', hshift, toNat_ushiftRight_eq_div, hN]
  have htie : ∀ x : BitVec 32, x &&& 0x3fff ≠ 0x1000 ↔ x.toNat % 2 ^ 14 ≠ 2 ^ 12 := fun x => by
    rw [ne_eq, ← BitVec.toNat_inj, toNat_and_mask (k := 14) rfl]
    rfl
  have hlost : (fp32HiddenBit ||| (v &&& fp32FractionMask)) &&& 0x7ff ≠ 0 ↔
      (2 ^ 23 + v.toNat % 2 ^ 23) % 2 ^ 11 ≠ 0 := by
    rw [ne_eq, eq_zero_iff_toNat, toNat_and_mask (k := 11) rfl, hN]
  have hbound : (2 ^ 23 + v.toNat % 2 ^ 23) / 2 ^ r ≤ 2 ^ 24 :=
    (Nat.div_le_self _ _).trans (by omega)
  unfold roundMagnitude
  rw [if_neg ((sle_iff (by omega) (by decide)).not.mpr (by show ¬v.toNat ≤ 102 * 2 ^ 23; omega)),
    if_pos ((slt_iff (by omega) (by decide)).mpr (by show v.toNat < 113 * 2 ^ 23; omega))]
  dsimp only
  rw [BitVec.toNat_add, hkept]
  simp only [htie, hlost, hkept]
  split
  · rw [show (0x1000 : BitVec 32).toNat = 2 ^ 12 from rfl]
    omega
  · rw [show (0 : BitVec 32).toNat = 0 from rfl]
    omega

/-- What the shift by `r` loses is among the lowest 11 bits, and they have nothing else then. -/
theorem lost_iff {N V r : ℕ} (hV : N / 2 ^ r = V) (hr : r ≤ 11) (hlow : V % 2 ^ 12 = 0) :
    N % 2 ^ 11 ≠ 0 ↔ N % 2 ^ r ≠ 0 := by
  have hN := Nat.div_add_mod N (2 ^ r)
  have hlt := Nat.mod_lt N (Nat.two_pow_pos r)
  have hle : 2 ^ r ≤ 2 ^ 11 := Nat.pow_le_pow_right Nat.two_pos hr
  obtain ⟨c, hc⟩ := Nat.dvd_of_mod_eq_zero hlow
  have hmul : N = 2 ^ 11 * (2 * 2 ^ r * c) + N % 2 ^ r := by
    conv_lhs => rw [← hN, hV, hc]
    ring
  have hmod : N % 2 ^ 11 = N % 2 ^ r := by
    conv_lhs => rw [hmul]
    rw [Nat.mul_add_mod, Nat.mod_eq_of_lt (by omega)]
  rw [hmod]

theorem halves_subnormal (hlo : 102 * 2 ^ 23 < single.rest s.toNat) (hhi : biased s ≤ 112) :
    Halves s (float2half s) := by
  have hM := fraction_lt s
  have hrest := rest_eq s
  have hv := abs_toNat s
  obtain ⟨r, hr, hr₁, hr₁₁⟩ : ∃ r, biased s + r = 113 ∧ 1 ≤ r ∧ r ≤ 11 :=
    ⟨113 - biased s, by omega, by omega, by omega⟩
  have hround := roundMagnitude_subnormal (v := s ^^^ (s &&& signN)) (r := r) (by omega) hr₁
    (by omega)
  have hfrac : (s ^^^ (s &&& signN)).toNat % 2 ^ 23 = s.toNat % 2 ^ 23 := by omega
  rw [hfrac] at hround
  obtain ⟨N, hN⟩ : ∃ N, N = 2 ^ 23 + s.toNat % 2 ^ 23 := ⟨_, rfl⟩
  rw [← hN] at hround
  obtain ⟨V, hV⟩ : ∃ V, N / 2 ^ r = V := ⟨_, rfl⟩
  have hVle : V ≤ 2 ^ 23 := by
    rw [← hV]
    refine (Nat.div_le_div_left (Nat.pow_le_pow_right Nat.two_pos hr₁) (by decide)).trans ?_
    omega
  have hdiv : ∀ k, N / 2 ^ (r + k) = V / 2 ^ k := fun k => by
    rw [← hV, Nat.div_div_eq_div_mul, ← pow_add]
  have hrounds := roundsEven_significand (N := N) (E := biased s - 1)
    (k := r + 12) (e := 0) (u := V / 2 ^ 13) (by rw [Nat.add_assoc, hdiv]; omega)
    (by rw [Nat.add_assoc, hdiv]; omega) (.inl rfl) (by omega)
  have hsticky : N % 2 ^ (r + 12) ≠ 0 ↔ N % 2 ^ r ≠ 0 ∨ V % 2 ^ 12 ≠ 0 := by
    rw [pow_add, Nat.mod_mul, hV]
    have := Nat.two_pow_pos r
    simp only [ne_eq, Nat.add_eq_zero_iff, Nat.mul_eq_zero, this.ne', false_or]
    exact not_and_or
  rw [hV] at hround
  rw [hN, ← absValue_normal s (by omega), ← hN] at hrounds
  refine halves_of_toNat s (float2half_toNat s) ?_ ?_
  · rw [hround]
    split <;> omega
  · refine (congrArg (RoundsEven half.absValue _) ?_).mpr hrounds
    rw [hround, hdiv]
    by_cases hlow : V % 2 ^ 12 = 0
    · simp only [lost_iff hV hr₁₁ hlow, hsticky]
      split <;> split <;> omega
    · rw [if_pos (.inl (by omega))]
      simp only [hsticky]
      split <;> omega

/-- What is not greater than half of the least `half` is rounded to zero. -/
theorem rounds_zero (hr : single.rest s.toNat ≤ 102 * 2 ^ 23) :
    RoundsEven half.absValue (single.absValue (single.rest s.toNat)) 0 := by
  have hlast : magnitude 23 (102 * 2 ^ 23) = 2 ^ 124 :=
    magnitude_add (m := 23) (e := 101) (q := 2 ^ 23) (by omega) (by omega)
  have hone : half.absValue (0 + 1) = 2 * ((2 ^ 124 : ℕ) * single.unit) := by
    have hunit : half.absValue (0 + 1) = half.unit := one_mul _
    rw [hunit, unit_half]
    push_cast
    ring
  have hpos := single.unit_pos
  rcases hr.lt_or_eq with hlt | heq
  · have hmagnitude : magnitude 23 (single.rest s.toNat) < 2 ^ 124 := by
      rw [← hlast]
      exact strictMono_magnitude 23 hlt
    have hsmall : single.absValue (single.rest s.toNat) < (2 ^ 124 : ℕ) * single.unit :=
      mul_lt_mul_of_pos_right (Nat.cast_lt.mpr hmagnitude) hpos
    refine .down ?_ ?_
    · rw [absValue_zero]
      exact single.absValue_nonneg _
    · rw [hone, absValue_zero]
      linarith
  · have hvalue : single.absValue (single.rest s.toNat) = (2 ^ 124 : ℕ) * single.unit := by
      rw [heq]
      exact congrArg (fun m : ℕ => (m : ℚ) * single.unit) hlast
    refine .tie (u := 0) ?_ (.inl rfl) rfl
    rw [hone, absValue_zero, hvalue]
    ring

theorem halves_tiny (hr : single.rest s.toNat ≤ 102 * 2 ^ 23) : Halves s (float2half s) := by
  have hv := abs_toNat s
  have hzero : roundMagnitude (s ^^^ (s &&& signN)) = 0 :=
    if_pos ((sle_iff (by omega) (by decide)).mpr (by rw [hv]; exact hr))
  refine halves_of_toNat s (float2half_toNat s) ?_ ?_
  · rw [hzero]
    decide
  · rw [hzero]
    exact rounds_zero s hr

theorem halves_float2half (hE : biased s ≤ 142) : Halves s (float2half s) := by
  have hrest := rest_eq s
  have hM := fraction_lt s
  rcases Nat.lt_or_ge (102 * 2 ^ 23) (single.rest s.toNat) with hlo | htiny
  · rcases Nat.lt_or_ge (biased s) 113 with hsub | hnormal
    · exact halves_subnormal s hlo (by omega)
    · exact halves_normal s hnormal hE
  · exact halves_tiny s htiny

/-- From the greatest exponent of a `half` on, the comparisons decide. -/
theorem roundMagnitude_large {v : BitVec 32} (hlo : 143 * 2 ^ 23 ≤ v.toNat)
    (hlt : v.toNat < 2 ^ 31) : (roundMagnitude v).toNat =
      if v.toNat ≤ 255 * 2 ^ 23 then 255 * 2 ^ 23
      else if v.toNat < 255 * 2 ^ 23 + 2 ^ 13 then 255 * 2 ^ 23 + 2 ^ 13 else v.toNat := by
  have hinf : v.sle infN = true ↔ v.toNat ≤ 255 * 2 ^ 23 := sle_iff hlt (by decide)
  have hnan : v.slt nanN = true ↔ v.toNat < 255 * 2 ^ 23 + 2 ^ 13 := slt_iff hlt (by decide)
  unfold roundMagnitude
  rw [if_neg ((sle_iff hlt (by decide)).not.mpr (by show ¬v.toNat ≤ 102 * 2 ^ 23; omega)),
    if_neg ((slt_iff hlt (by decide)).not.mpr (by show ¬v.toNat < 113 * 2 ^ 23; omega)),
    if_neg ((sle_iff hlt (by decide)).not.mpr (by show ¬v.toNat ≤ 143 * 2 ^ 23 - 1; omega))]
  simp only [hinf, hnan]
  split
  · rfl
  · split
    · rfl
    · rfl

/-- What has too high an exponent is infinite. -/
theorem float2half_toNat_overflow (hE : 143 ≤ biased s) (hs : ¬single.IsNaN s.toNat) :
    (float2half s).toNat = single.signBit s.toNat * 2 ^ 15 + 0x7c00 := by
  have hv := abs_toNat s
  have hlt := rest_lt s
  have hrest := rest_eq s
  have hle : single.rest s.toNat ≤ 255 * 2 ^ 23 := Nat.le_of_not_lt hs
  rw [float2half_toNat, roundMagnitude_large (by omega) (by omega), if_pos (by omega)]
  rfl

/-- A NaN is kept. -/
theorem isNaN_float2half (hs : single.IsNaN s.toNat) : half.IsNaN (float2half s).toNat ∧
    half.signBit (float2half s).toNat = single.signBit s.toNat := by
  have hv := abs_toNat s
  have hlt := rest_lt s
  have hsign := single.signBit_lt s.toNat
  have hnan : 255 * 2 ^ 23 < single.rest s.toNat := hs
  have hlarge := roundMagnitude_large (v := s ^^^ (s &&& signN)) (by omega) (by omega)
  rw [if_neg (by omega)] at hlarge
  have hlow : 255 * 2 ^ 23 + 2 ^ 13 ≤ (roundMagnitude (s ^^^ (s &&& signN))).toNat ∧
      (roundMagnitude (s ^^^ (s &&& signN))).toNat < 2 ^ 31 := by
    rw [hlarge]
    split <;> omega
  have hp := float2half_toNat s
  constructor
  · show 31 * 2 ^ 10 < (float2half s).toNat % 2 ^ 15
    omega
  · show (float2half s).toNat / 2 ^ 15 % 2 = _
    omega

/-- Both conversions round to the same pattern. -/
theorem float2half_eq (hs : ¬single.IsNaN s.toNat) : float2half s = float2HalfBits s := by
  rcases Nat.lt_or_ge (biased s) 143 with hlt | hge
  · have h := halves_float2half s (by omega)
    have h' := halves_float2HalfBits s (by omega)
    exact half_ext (h.sign.trans h'.sign.symm) (h.rounds.unique half.strictMono_absValue h'.rounds)
  · refine BitVec.eq_of_toNat_eq ?_
    rw [float2half_toNat_overflow s hge hs, float2HalfBits_toNat_overflow s hge hs]

end ToHalf

/-! ### To `float` -/

/-- `v ^= (w ^ v) & -(condition)`. -/
theorem xor_maskOf (v w : BitVec 32) (condition : Bool) :
    v ^^^ ((w ^^^ v) &&& maskOf condition) = if condition = true then w else v := by
  cases condition with
  | false =>
      show v ^^^ ((w ^^^ v) &&& 0#32) = v
      rw [BitVec.and_zero, BitVec.xor_zero]
  | true =>
      show v ^^^ ((w ^^^ v) &&& BitVec.allOnes 32) = w
      rw [BitVec.and_allOnes, BitVec.xor_comm w, ← BitVec.xor_assoc, BitVec.xor_self,
        BitVec.zero_xor]

section ToFloat

variable (h : BitVec 16)

/-- Above the lowest 16 bits there is nothing. -/
theorem and_signC : h.setWidth 32 &&& signC = h.setWidth 32 &&& 0x8000 := by
  have hlow : ∀ i : Fin 16, signC.getLsbD i = (0x8000 : BitVec 32).getLsbD i := by decide
  refine BitVec.eq_of_getLsbD_eq fun i hi => ?_
  rw [BitVec.getLsbD_and, BitVec.getLsbD_and, BitVec.getLsbD_setWidth]
  rcases Nat.lt_or_ge i 16 with hlt | hge
  · rw [hlow ⟨i, hlt⟩]
  · rw [BitVec.getLsbD_of_ge h i hge, Bool.and_false, Bool.false_and, Bool.false_and]

theorem half_abs_toNat :
    (h.setWidth 32 ^^^ (h.setWidth 32 &&& signC)).toNat = half.rest h.toNat := by
  rw [xor_and_eq, toNat_and_mask (k := 15) (y := ~~~signC) rfl, BitVec.toNat_setWidth]
  show h.toNat % 2 ^ 32 % 2 ^ 15 = h.toNat % 2 ^ 15
  omega

theorem half_rest_lt : half.rest h.toNat < 2 ^ 15 := Nat.mod_lt _ (by decide)

/-- What is done to exponent and fraction. -/
def widen (v : BitVec 32) : BitVec 32 :=
  let v := if subC.slt v = true then v + minD else v
  let v := if maxC.slt v = true then v + maxD else v
  if v.slt norC = true then mulSubnormal v else v <<< shift

theorem half2float_toNat {r : ℕ} (hr : r < 2 ^ 31)
    (hv : (widen (h.setWidth 32 ^^^ (h.setWidth 32 &&& signC))).toNat = r) :
    (half2float h).toNat = half.signBit h.toNat * 2 ^ 31 + r := by
  have hsign : ((h.setWidth 32 &&& signC) <<< shiftSign).toNat = half.signBit h.toNat * 2 ^ 31 := by
    rw [and_signC, BitVec.toNat_shiftLeft, toNat_and_bit (k := 15) rfl, BitVec.toNat_setWidth,
      Nat.shiftLeft_eq]
    show h.toNat % 2 ^ 32 / 2 ^ 15 % 2 * 2 ^ 15 * 2 ^ 16 % 2 ^ 32 = h.toNat / 2 ^ 15 % 2 * 2 ^ 31
    omega
  have heq : half2float h = widen (h.setWidth 32 ^^^ (h.setWidth 32 &&& signC)) |||
      ((h.setWidth 32 &&& signC) <<< shiftSign) := by
    unfold half2float widen
    simp only [xor_maskOf]
  rw [heq, BitVec.toNat_or, hv, hsign, Nat.lor_comm, or_eq_add hr]

/-- A subnormal `half` is multiplied by its unit. -/
theorem mulSubnormal_toNat {v : BitVec 32} (hpos : 0 < v.toNat) (hlt : v.toNat < 2 ^ 10) :
    (mulSubnormal v).toNat =
      (v.toNat.log2 + 102) * 2 ^ 23 + v.toNat * 2 ^ (23 - v.toNat.log2) := by
  have hlog : v.toNat.log2 < 10 := (Nat.log2_lt hpos.ne').mpr hlt
  exact FloatModel.toBits_mul_toFloat32 (c := Float32.ofBits (.ofBitVec mulC)) (e := -47)
    (v := UInt32.ofBitVec v) rfl hpos (by show v.toNat < 2 ^ 24; omega)
    (b := v.toNat.log2 + 103) (by show (-47 : ℤ) + v.toNat.log2 + 150 = _; omega) (by omega)
    (by omega)

theorem floats_subnormal (hlt : half.rest h.toNat < 2 ^ 10) : Floats h (half2float h) := by
  have hv := half_abs_toNat h
  obtain ⟨v, hdef⟩ : ∃ v, v = h.setWidth 32 ^^^ (h.setWidth 32 &&& signC) := ⟨_, rfl⟩
  rw [← hdef] at hv
  have hsub : ¬subC.slt v = true := by
    rw [slt_iff (by decide) (by omega), show subC.toNat = 0x3ff from rfl]
    omega
  have hgreat : ¬maxC.slt v = true := by
    rw [slt_iff (by decide) (by omega), show maxC.toNat = 0x23bff from rfl]
    omega
  have hsmall : v.slt norC = true := by
    rw [slt_iff (by omega) (by decide), show norC.toNat = 0x400 from rfl]
    omega
  have hwiden : widen v = mulSubnormal v := by
    unfold widen
    rw [if_neg hsub]
    dsimp only
    rw [if_neg hgreat, if_pos hsmall]
  have hhalf : magnitude 10 (half.rest h.toNat) = half.rest h.toNat := by
    have := magnitude_add (m := 10) (e := 0) (q := half.rest h.toNat) (by omega) (.inl rfl)
    rwa [Nat.zero_mul, Nat.zero_add, pow_zero, Nat.mul_one] at this
  rcases Nat.eq_zero_or_pos (half.rest h.toNat) with hzero | hpos
  · have hv0 : v = 0 := BitVec.eq_of_toNat_eq (hv.trans hzero)
    have hbits : (widen v).toNat = 0 := by
      rw [hwiden, hv0]
      decide
    refine floats_of_toNat h (half2float_toNat h (r := 0) (by decide) ?_) (by decide) ?_
    · rw [← hdef]
      exact hbits
    · rw [hzero, magnitude_zero, magnitude_zero, Nat.zero_mul]
  · have hbits := mulSubnormal_toNat (v := v) (by omega) (by omega)
    have hnormal := FloatModel.normal_of_log2 (v := v.toNat) (by omega) (by omega)
    have hlog : v.toNat.log2 < 10 := (Nat.log2_lt (by omega)).mpr (by omega)
    have hlow := hnormal.le
    have hhigh := hnormal.lt
    have hr : (mulSubnormal v).toNat < 255 * 2 ^ 23 := by omega
    refine floats_of_toNat h (half2float_toNat h (by omega) (by rw [← hdef, hwiden])) hr ?_
    · rw [hbits, magnitude_add (m := 23) (by omega) (.inr hlow), hhalf, ← hv, Nat.mul_assoc, ← pow_add]
      congr 2
      omega

/-- With an exponent the difference of the biases is added, and for infinity and NaN once more. -/
theorem widen_toNat {v : BitVec 32} (hlo : 2 ^ 10 ≤ v.toNat) (hlt : v.toNat < 2 ^ 15) :
    (widen v).toNat =
      (v.toNat + if v.toNat < 31 * 2 ^ 10 then 112 * 2 ^ 10 else 224 * 2 ^ 10) * 2 ^ 13 := by
  have hmin : (v + minD).toNat = v.toNat + 112 * 2 ^ 10 := by
    rw [BitVec.toNat_add, show minD.toNat = 112 * 2 ^ 10 from rfl]
    omega
  have hmax : (v + minD + maxD).toNat = v.toNat + 224 * 2 ^ 10 := by
    rw [BitVec.toNat_add, hmin, show maxD.toNat = 112 * 2 ^ 10 from rfl]
    omega
  have hsub : subC.slt v = true := by
    rw [slt_iff (by decide) (by omega), show subC.toNat = 0x3ff from rfl]
    omega
  have hgreat : maxC.slt (v + minD) = true ↔ 31 * 2 ^ 10 ≤ v.toNat := by
    rw [slt_iff (by decide) (by omega), hmin, show maxC.toNat = 143 * 2 ^ 10 - 1 from rfl]
    omega
  have hnormal : ∀ w : BitVec 32, 2 ^ 10 ≤ w.toNat → w.toNat < 2 ^ 31 → ¬w.slt norC = true := by
    intro w hlo hlt
    rw [slt_iff hlt (by decide), show norC.toNat = 0x400 from rfl]
    omega
  unfold widen
  rw [if_pos hsub]
  dsimp only
  by_cases hinf : 31 * 2 ^ 10 ≤ v.toNat
  · rw [if_pos (hgreat.mpr hinf), if_neg (hnormal _ (by omega) (by omega)),
      BitVec.toNat_shiftLeft, hmax, Nat.shiftLeft_eq, show shift = 13 from rfl, if_neg (by omega)]
    omega
  · rw [if_neg (hgreat.not.mpr hinf), if_neg (hnormal _ (by omega) (by omega)),
      BitVec.toNat_shiftLeft, hmin, Nat.shiftLeft_eq, show shift = 13 from rfl, if_pos (by omega)]
    omega

theorem half2float_toNat_of_le (hlo : 2 ^ 10 ≤ half.rest h.toNat) :
    (half2float h).toNat = half.signBit h.toNat * 2 ^ 31 + (half.rest h.toNat +
      if half.rest h.toNat < 31 * 2 ^ 10 then 112 * 2 ^ 10 else 224 * 2 ^ 10) * 2 ^ 13 := by
  have hv := half_abs_toNat h
  have hlt := half_rest_lt h
  have hwiden := widen_toNat (v := h.setWidth 32 ^^^ (h.setWidth 32 &&& signC)) (by omega) (by omega)
  rw [hv] at hwiden
  refine half2float_toNat h ?_ hwiden
  split <;> omega

theorem floats_normal (hlo : 2 ^ 10 ≤ half.rest h.toNat) (hfinite : half.IsFinite h.toNat) :
    Floats h (half2float h) := by
  have hfinite : half.rest h.toNat < 31 * 2 ^ 10 := hfinite
  have hf := half2float_toNat_of_le h hlo
  rw [if_pos hfinite] at hf
  obtain ⟨e, q, hq, hnormal, hsplit⟩ := exists_significand 10 (half.rest h.toNat)
  have hq' : 2 ^ 10 ≤ q := by omega
  refine floats_of_toNat h hf (by omega) ?_
  have hsingle : (half.rest h.toNat + 112 * 2 ^ 10) * 2 ^ 13 = (e + 112) * 2 ^ 23 + q * 2 ^ 13 := by
    rw [hsplit]
    ring
  rw [hsingle, magnitude_add (m := 23) (by omega) (.inr (by omega)), hsplit,
    magnitude_add (m := 10) (by omega) hnormal, Nat.mul_assoc, Nat.mul_assoc, ← pow_add, ← pow_add]
  congr 2
  omega

theorem floats_half2float (hfinite : half.IsFinite h.toNat) : Floats h (half2float h) := by
  rcases Nat.lt_or_ge (half.rest h.toNat) (2 ^ 10) with hlt | hge
  · exact floats_subnormal h hlt
  · exact floats_normal h hge hfinite

theorem single_ext {p q : BitVec 32} (hsign : single.signBit p.toNat = single.signBit q.toNat)
    (hrest : single.rest p.toNat = single.rest q.toNat) : p = q := by
  refine BitVec.eq_of_toNat_eq ?_
  change p.toNat / 2 ^ 31 % 2 = q.toNat / 2 ^ 31 % 2 at hsign
  change p.toNat % 2 ^ 31 = q.toNat % 2 ^ 31 at hrest
  omega

/-- Both conversions give the same pattern. -/
theorem half2float_eq (hh : ¬half.IsNaN h.toNat) : half2float h = halfBits2Float h := by
  rcases Nat.lt_or_eq_of_le (Nat.le_of_not_lt hh) with hfinite | hinf
  · have hf := floats_half2float h hfinite
    have hf' := floats_halfBits2Float h hfinite
    exact single_ext (hf.sign.trans hf'.sign.symm)
      (single.strictMono_absValue.injective (hf.abs_eq.trans hf'.abs_eq.symm))
  · have hrest : half.rest h.toNat = 31 * 2 ^ 10 := hinf
    refine BitVec.eq_of_toNat_eq ?_
    rw [half2float_toNat_of_le h (by omega), halfBits2Float_toNat_infinite h hinf, hrest]
    rfl

/-- A NaN keeps its fraction. -/
theorem rest_half2float_of_isNaN (hh : half.IsNaN h.toNat) :
    single.signBit (half2float h).toNat = half.signBit h.toNat ∧
      single.rest (half2float h).toNat = (half.rest h.toNat + 224 * 2 ^ 10) * 2 ^ 13 := by
  have hnan : 31 * 2 ^ 10 < half.rest h.toNat := hh
  have hlt := half_rest_lt h
  have hsign := half.signBit_lt h.toNat
  have hf := half2float_toNat_of_le h (by omega)
  rw [if_neg (by omega)] at hf
  constructor
  · show (half2float h).toNat / 2 ^ 31 % 2 = _
    omega
  · show (half2float h).toNat % 2 ^ 31 = _
    omega

/-- What is converted to `float` is converted back to the same pattern. -/
theorem float2half_half2float : float2half (half2float h) = h := by
  by_cases hh : half.IsNaN h.toNat
  · obtain ⟨hsign, hrest⟩ := rest_half2float_of_isNaN h hh
    have hnan : 31 * 2 ^ 10 < half.rest h.toNat := hh
    have hlt := half_rest_lt h
    have hsmall := half.signBit_lt h.toNat
    have hv := abs_toNat (half2float h)
    have hlarge := roundMagnitude_large (v := half2float h ^^^ (half2float h &&& signN)) (by omega)
      (by omega)
    rw [if_neg (by omega), if_neg (by omega), hv, hrest] at hlarge
    have hp := float2half_toNat (half2float h)
    rw [hlarge, hsign] at hp
    refine half_ext ?_ ?_
    · show (float2half (half2float h)).toNat / 2 ^ 15 % 2 = _
      omega
    · show (float2half (half2float h)).toNat % 2 ^ 15 = _
      omega
  · have hf := half2float_eq h hh
    have hnumber : ¬single.IsNaN (half2float h).toNat := by
      rw [hf]
      rcases Nat.lt_or_eq_of_le (Nat.le_of_not_lt hh) with hfinite | hinf
      · exact Nat.lt_asymm (floats_halfBits2Float h hfinite).finite
      · exact Nat.not_lt.mpr (Nat.le_of_eq (halfBits2Float_infinite h hinf).2)
    rw [float2half_eq _ hnumber, hf, float2HalfBits_halfBits2Float h hh]

end ToFloat

/-- What both conversions round to, by the numbers alone. -/
theorem nearest_float2half (s : BitVec 32) (hs : single.IsFinite s.toNat) :
    (|single.value s.toNat| < 65520 →
      half.Nearest (single.value s.toNat) (float2half s).toNat) ∧
    (65520 ≤ |single.value s.toNat| → half.IsInfinite (float2half s).toNat) := by
  have hnumber : ¬single.IsNaN s.toNat := Nat.lt_asymm hs
  rw [float2half_eq s hnumber]
  exact ⟨nearest_float2HalfBits s, fun hle => isInfinite_float2HalfBits s hnumber (.inr hle)⟩

/--
**The conversions of `half_t` are those of `CpuReducer` on numbers**, bit by bit, and both round
to the nearest, in a tie to the even one, and to infinity from the middle above the greatest `half`
on.  A NaN stays a NaN of its sign, and every pattern, also that of a NaN, survives the way to
`float` and back.
-/
theorem half_conversions_agree :
    (∀ s : BitVec 32, ¬single.IsNaN s.toNat → float2half s = float2HalfBits s) ∧
    (∀ s : BitVec 32, single.IsFinite s.toNat →
      (|single.value s.toNat| < 65520 →
        half.Nearest (single.value s.toNat) (float2half s).toNat) ∧
      (65520 ≤ |single.value s.toNat| → half.IsInfinite (float2half s).toNat)) ∧
    (∀ s : BitVec 32, single.IsNaN s.toNat → half.IsNaN (float2half s).toNat ∧
      half.signBit (float2half s).toNat = single.signBit s.toNat) ∧
    (∀ h : BitVec 16, ¬half.IsNaN h.toNat → half2float h = halfBits2Float h) ∧
    (∀ h : BitVec 16, half.IsNaN h.toNat → single.IsNaN (half2float h).toNat ∧
      single.signBit (half2float h).toNat = half.signBit h.toNat) ∧
    ∀ h : BitVec 16, float2half (half2float h) = h := by
  refine ⟨float2half_eq, nearest_float2half, isNaN_float2half, half2float_eq, fun h hh => ?_,
    float2half_half2float⟩
  obtain ⟨hsign, hrest⟩ := rest_half2float_of_isNaN h hh
  have hnan : 31 * 2 ^ 10 < half.rest h.toNat := hh
  refine ⟨?_, hsign⟩
  show 255 * 2 ^ 23 < single.rest (half2float h).toNat
  omega

/-- The least subnormal number, which the number above a tie is rounded to. -/
theorem half_conversions_agree_least : float2half 0x33000001 = float2HalfBits 0x33000001 ∧
    half.Nearest (single.value 0x33000001) (float2half 0x33000001).toNat ∧
    float2half (half2float 0x7c01) = 0x7c01 :=
  ⟨half_conversions_agree.1 _ (Nat.not_lt.mpr (by decide)),
    (half_conversions_agree.2.1 0x33000001 (show single.rest 0x33000001 < single.infinity by decide)).1
      (by decide +kernel),
    half_conversions_agree.2.2.2.2.2 _⟩

end DeepInc.Half
