/-
What the conversions between `half` and `float` compute.

A `float` is cut to the bits a `half` has room for, at the weight the exponent gives them, and
what is cut off decides whether the next `half` is taken.  From `half` to `float` nothing is cut
off.

What it means to be nearest is said in `Lib/Binary.lean` for patterns of any format: no other
finite pattern is nearer, and in a tie the significand is even.  The patterns without a sign are
ordered as their numbers, so it is enough to know between which two patterns a number lies and
on which side of their middle.  The structure `Halves` says that of a result; what rounds to
infinity is then what is beyond the middle of the greatest finite `half` and the pattern after
it.

The functions are written with masks and shifts.  Each of these is turned into arithmetic on
natural numbers first, and what follows only speaks of exponents and significands.
-/
import DeepInc.Common.HalfFloat
import DeepInc.Lib.Binary
import Mathlib.Data.Nat.Bitwise
import Mathlib.Tactic.LinearCombination

namespace DeepInc.CpuReducer

open Binary Binary.Format

/-! ### Fields of words

A mask is a remainder, a shift is a quotient or a product, and an or of fields that do not
overlap is their sum.
-/

section Fields

variable {w : ℕ} {x y : BitVec w} {k : ℕ}

theorem toNat_and_mask (hy : y.toNat = 2 ^ k - 1) : (x &&& y).toNat = x.toNat % 2 ^ k := by
  rw [BitVec.toNat_and, hy, Nat.and_two_pow_sub_one_eq_mod]

theorem toNat_and_bit (hy : y.toNat = 2 ^ k) :
    (x &&& y).toNat = x.toNat / 2 ^ k % 2 * 2 ^ k := by
  rw [BitVec.toNat_and, hy, Nat.and_two_pow, Nat.toNat_testBit]

theorem toNat_ushiftRight_eq_div (x : BitVec w) (k : ℕ) : (x >>> k).toNat = x.toNat / 2 ^ k := by
  rw [BitVec.toNat_ushiftRight, Nat.shiftRight_eq_div_pow]

theorem toNat_shiftLeft_sub_one (hk : k ≤ 31) : (((1 : BitVec 32) <<< k) - 1).toNat = 2 ^ k - 1 := by
  have hlt : 2 ^ k ≤ 2 ^ 31 := Nat.pow_le_pow_right Nat.two_pos hk
  have hpos := Nat.two_pow_pos k
  have hshift : ((1 : BitVec 32) <<< k).toNat = 2 ^ k := by
    rw [BitVec.toNat_shiftLeft, Nat.shiftLeft_eq, show (1 : BitVec 32).toNat = 1 from rfl,
      Nat.one_mul, Nat.mod_eq_of_lt (by omega)]
  rw [BitVec.toNat_sub, hshift, show (1 : BitVec 32).toNat = 1 from rfl]
  omega

/-- Fields next to each other. -/
theorem or_eq_add {a b : ℕ} (hb : b < 2 ^ k) : a * 2 ^ k ||| b = a * 2 ^ k + b := by
  rw [← Nat.shiftLeft_eq, Nat.shiftLeft_add_eq_or_of_lt hb]

theorem eq_zero_iff_toNat : x = 0 ↔ x.toNat = 0 := by
  rw [← BitVec.toNat_inj]
  simp

theorem bne_zero_iff : (x != 0) = true ↔ x.toNat ≠ 0 := by
  rw [bne_iff_ne, ne_eq, eq_zero_iff_toNat]

end Fields

/-! ### Rounding to `half`

`roundHalf` ends the normal and the subnormal case.  It adds one to what is kept when more than
half of the last bit that is kept was cut off, or just half of it and what is kept is odd.
-/

theorem unit_half : half.unit = 2 ^ 125 * single.unit := by
  show (2 : ℚ) ^ (2 - 2 ^ 4 - 10 : ℤ) = 2 ^ 125 * 2 ^ (2 - 2 ^ 7 - 23 : ℤ)
  norm_num

/-- A significand `N` of a `float`, of which `k + 1` bits are cut off. -/
theorem roundsEven_significand {N E k e u : ℕ} (hu : u = e * 2 ^ 10 + N / 2 ^ (k + 1))
    (hlt : N / 2 ^ (k + 1) < 2 ^ 11) (hnormal : e = 0 ∨ 2 ^ 10 ≤ N / 2 ^ (k + 1))
    (hweight : E + (k + 1) = e + 125) :
    RoundsEven half.absValue (((N * 2 ^ E : ℕ) : ℚ) * single.unit)
      (if N / 2 ^ k % 2 = 1 ∧ (N % 2 ^ k ≠ 0 ∨ u % 2 = 1) then u + 1 else u) := by
  have hscale : ∀ q : ℕ, ((q * 2 ^ e : ℕ) : ℚ) * half.unit =
      ((q * 2 ^ (k + 1) : ℕ) : ℚ) * (2 ^ E * single.unit) := fun q => by
    have hpow : (2 : ℚ) ^ (k + 1) * 2 ^ E = 2 ^ e * 2 ^ 125 := by
      rw [← pow_add, ← pow_add, Nat.add_comm, hweight]
    rw [unit_half]
    push_cast
    linear_combination (-(q : ℚ) * single.unit) * hpow
  have hround := roundsEven_of_bits (g := half.absValue) (c := 2 ^ E * single.unit) (N := N)
    (k := k) (u := u) (mul_pos (by positivity) single.unit_pos) ?_ ?_
  · rw [← mul_assoc] at hround
    rwa [Nat.cast_mul, Nat.cast_pow, Nat.cast_ofNat]
  · rw [hu, ← hscale]
    exact congrArg (fun m : ℕ => (m : ℚ) * half.unit) (magnitude_add (m := 10) hlt.le hnormal)
  · rw [hu, ← hscale, Nat.add_assoc]
    exact congrArg (fun m : ℕ => (m : ℚ) * half.unit)
      (magnitude_add (m := 10) hlt (hnormal.imp_right fun h => by omega))

/-- A sign in the highest bit. -/
theorem or_sign_toNat {sign u : BitVec 16} {σ : ℕ} (hsign : sign.toNat = σ * 2 ^ 15)
    (hu : u.toNat < 2 ^ 15) : (u ||| sign).toNat = σ * 2 ^ 15 + u.toNat := by
  rw [BitVec.toNat_or, hsign, Nat.lor_comm, or_eq_add hu]

/-- Exponent and fraction of a `half`. -/
theorem or_fraction_toNat {u : BitVec 16} {t : BitVec 32} {e : ℕ} (hu : u.toNat = e * 2 ^ 10)
    (he : e < 2 ^ 5) (ht : t.toNat < 2 ^ 10) :
    ((u.setWidth 32 ||| t).setWidth 16).toNat = e * 2 ^ 10 + t.toNat := by
  have hword : (u.setWidth 32).toNat = e * 2 ^ 10 := by
    rw [BitVec.toNat_setWidth, hu]
    omega
  rw [BitVec.toNat_setWidth, BitVec.toNat_or, hword, or_eq_add ht]
  omega

theorem roundHalf_toNat {sign u : BitVec 16} {σ : ℕ} (hsign : sign.toNat = σ * 2 ^ 15)
    (hu : u.toNat < 0x7c00) (mantissa : BitVec 32) (stickyBit : Bool) :
    (roundHalf sign u mantissa stickyBit).toNat = σ * 2 ^ 15 +
      if mantissa.toNat / 2 ^ 12 % 2 = 1 ∧
        ((stickyBit = true ∨ mantissa.toNat % 2 ^ 12 ≠ 0) ∨ u.toNat % 2 = 1) then u.toNat + 1
      else u.toNat := by
  have hround : ((mantissa >>> 12) &&& 1 != 0) = true ↔ mantissa.toNat / 2 ^ 12 % 2 = 1 := by
    rw [bne_zero_iff, toNat_and_mask (k := 1) rfl, toNat_ushiftRight_eq_div]
    omega
  have hsticky : (mantissa &&& (((1 : BitVec 32) <<< 12) - 1) != 0) = true ↔
      mantissa.toNat % 2 ^ 12 ≠ 0 := by
    rw [bne_zero_iff, toNat_and_mask (k := 12) rfl]
  have hodd : (u &&& 1 != 0) = true ↔ u.toNat % 2 = 1 := by
    rw [bne_zero_iff, toNat_and_mask (k := 1) rfl]
    omega
  have hnext : (u + 1).toNat = u.toNat + 1 := by
    rw [BitVec.toNat_add, show (1 : BitVec 16).toNat = 1 from rfl, Nat.mod_eq_of_lt (by omega)]
  have hcond : ((((mantissa >>> 12) &&& 1 != 0) &&
      (stickyBit || mantissa &&& (((1 : BitVec 32) <<< 12) - 1) != 0)) ||
      (((mantissa >>> 12) &&& 1 != 0) && u &&& 1 != 0)) = true ↔
      mantissa.toNat / 2 ^ 12 % 2 = 1 ∧
        ((stickyBit = true ∨ mantissa.toNat % 2 ^ 12 ≠ 0) ∨ u.toNat % 2 = 1) := by
    rw [Bool.or_eq_true, Bool.and_eq_true, Bool.and_eq_true, Bool.or_eq_true, hround, hsticky,
      hodd, ← and_or_left]
  unfold roundHalf
  simp only [hcond]
  split
  · rw [or_sign_toNat hsign (by omega), hnext]
  · rw [or_sign_toNat hsign (by omega)]

/-! ### The fields of a `float` -/

section Float

variable (s : BitVec 32)

theorem sign_toNat :
    (((s >>> 16) &&& 0x8000).setWidth 16).toNat = single.signBit s.toNat * 2 ^ 15 := by
  have hsign : single.signBit s.toNat = s.toNat / 2 ^ 16 / 2 ^ 15 % 2 := by
    rw [Nat.div_div_eq_div_mul]
    rfl
  rw [BitVec.toNat_setWidth, toNat_and_bit (k := 15) rfl, toNat_ushiftRight_eq_div, hsign]
  omega

theorem rest_toNat : (s &&& 0x7fffffff).toNat = single.rest s.toNat :=
  toNat_and_mask (k := 31) rfl

/-- The biased exponent. -/
def biased : ℕ := s.toNat / 2 ^ 23 % 2 ^ 8

theorem biased_lt : biased s < 2 ^ 8 := Nat.mod_lt _ (by decide)

theorem exp_toNat :
    ((((s >>> 23) &&& 0xff) - 127).setWidth 16).toNat = (biased s + (2 ^ 16 - 127)) % 2 ^ 16 := by
  have hlt := biased_lt s
  have hfield : ((s >>> 23) &&& 0xff).toNat = biased s := by
    rw [toNat_and_mask (k := 8) rfl, toNat_ushiftRight_eq_div]
    rfl
  rw [BitVec.toNat_setWidth, BitVec.toNat_sub, hfield, show (127 : BitVec 32).toNat = 127 from rfl]
  omega

theorem exp_toInt :
    ((((s >>> 23) &&& 0xff) - 127).setWidth 16).toInt = (biased s : ℤ) - 127 := by
  have hlt := biased_lt s
  rw [BitVec.toInt_eq_toNat_cond, exp_toNat]
  omega

theorem mantissa_toNat : (s &&& 0x7fffff).toNat = s.toNat % 2 ^ 23 :=
  toNat_and_mask (k := 23) rfl

theorem fraction_lt : s.toNat % 2 ^ 23 < 2 ^ 23 := Nat.mod_lt _ (by decide)

theorem rest_eq : single.rest s.toNat = biased s * 2 ^ 23 + s.toNat % 2 ^ 23 := by
  show s.toNat % 2 ^ 31 = s.toNat / 2 ^ 23 % 2 ^ 8 * 2 ^ 23 + s.toNat % 2 ^ 23
  omega

theorem rest_ne_zero (hE : 1 ≤ biased s) : ¬s &&& 0x7fffffff = 0 := by
  rw [eq_zero_iff_toNat, rest_toNat, rest_eq]
  omega

/-- A normal `float` has a leading one above its fraction. -/
theorem absValue_normal {e : ℕ} (he : biased s = e + 1) : single.absValue (single.rest s.toNat) =
    (((2 ^ 23 + s.toNat % 2 ^ 23) * 2 ^ e : ℕ) : ℚ) * single.unit := by
  have hlt := fraction_lt s
  rw [rest_eq, he, Nat.succ_mul, Nat.add_assoc]
  exact congrArg (fun m : ℕ => (m : ℚ) * single.unit)
    (magnitude_add (m := 23) (by omega) (.inr (Nat.le_add_right _ _)))

/-! ### To `half`

The exponent says how many bits of the significand are kept.  From -14 on it is eleven of them,
and below that one less for every step; where none is left, the number is rounded to zero or to
the least `half`.
-/

/-- What is returned for a number below infinity. -/
structure Halves (p : BitVec 16) : Prop where
  sign : half.signBit p.toNat = single.signBit s.toNat
  rest_le : half.rest p.toNat ≤ half.infinity
  rounds : RoundsEven half.absValue (single.absValue (single.rest s.toNat)) (half.rest p.toNat)

theorem halves_of_toNat {p : BitVec 16} {r : ℕ} (hp : p.toNat = single.signBit s.toNat * 2 ^ 15 + r)
    (hr : r ≤ 0x7c00)
    (hrounds : RoundsEven half.absValue (single.absValue (single.rest s.toNat)) r) : Halves s p := by
  have hsign := single.signBit_lt s.toNat
  have hrest : half.rest p.toNat = r := by
    show p.toNat % 2 ^ 15 = r
    omega
  refine ⟨?_, hrest ▸ hr, hrest ▸ hrounds⟩
  show p.toNat / 2 ^ 15 % 2 = single.signBit s.toNat
  omega

/-- A number that is less than half of the least `half` is rounded to zero. -/
theorem rounds_tiny (hE : biased s < 82) :
    RoundsEven half.absValue (single.absValue (single.rest s.toNat)) 0 := by
  have hmagnitude : magnitude 23 (single.rest s.toNat) < 2 ^ 104 := by
    have hlt : single.rest s.toNat < 81 * 2 ^ 23 + 2 ^ 23 := by
      rw [rest_eq]
      omega
    exact (strictMono_magnitude 23 hlt).trans_le
      (magnitude_add (m := 23) (e := 81) (q := 2 ^ 23) (by decide) (.inr le_rfl)).le
  have hsmall : single.absValue (single.rest s.toNat) < 2 ^ 104 * single.unit :=
    mul_lt_mul_of_pos_right (by exact_mod_cast hmagnitude) single.unit_pos
  have hone : half.absValue 1 = 2 ^ 125 * single.unit := by
    rw [← unit_half]
    exact one_mul half.unit
  have hpos := single.unit_pos
  refine .down ?_ ?_
  · rw [absValue_zero]
    exact single.absValue_nonneg _
  · rw [Nat.zero_add, absValue_zero, hone]
    linarith

/-- The bits of a significand that are kept, and what is said of those that are not. -/
theorem halves_roundHalf {sign u : BitVec 16} {mantissa : BitVec 32} {stickyBit : Bool}
    {N E k e : ℕ} (hsign : sign.toNat = single.signBit s.toNat * 2 ^ 15)
    (hvalue : single.absValue (single.rest s.toNat) = ((N * 2 ^ E : ℕ) : ℚ) * single.unit)
    (hu : u.toNat = e * 2 ^ 10 + N / 2 ^ (k + 1)) (hlt : N / 2 ^ (k + 1) < 2 ^ 11)
    (hnormal : e = 0 ∨ 2 ^ 10 ≤ N / 2 ^ (k + 1)) (hweight : E + (k + 1) = e + 125) (he : e ≤ 29)
    (hround : mantissa.toNat / 2 ^ 12 % 2 = N / 2 ^ k % 2)
    (hsticky : (stickyBit = true ∨ mantissa.toNat % 2 ^ 12 ≠ 0) ↔ N % 2 ^ k ≠ 0) :
    Halves s (roundHalf sign u mantissa stickyBit) := by
  have hp := roundHalf_toNat hsign (show u.toNat < 0x7c00 by omega) mantissa stickyBit
  have hrounds := roundsEven_significand hu hlt hnormal hweight
  simp only [hround, hsticky] at hp
  rw [← hvalue] at hrounds
  refine halves_of_toNat s hp ?_ hrounds
  split <;> omega

/-- A `float` with an exponent that a `half` has. -/
theorem halves_normal (hlo : 113 ≤ biased s) (hhi : biased s ≤ 142) :
    Halves s (float2HalfBits s) := by
  have hM := fraction_lt s
  have hne := rest_ne_zero s (show 1 ≤ biased s by omega)
  have hexp : (((((((s >>> 23) &&& 0xff) - 127).setWidth 16) + 15) &&& 0x1f) <<< 10 :
      BitVec 16).toNat = (biased s - 112) * 2 ^ 10 := by
    rw [BitVec.toNat_shiftLeft, toNat_and_mask (k := 5) rfl, BitVec.toNat_add, exp_toNat,
      Nat.shiftLeft_eq, show (15 : BitVec 16).toNat = 15 from rfl]
    omega
  have hfraction : ((s &&& 0x7fffff) >>> 13).toNat = s.toNat % 2 ^ 23 / 2 ^ 13 := by
    rw [toNat_ushiftRight_eq_div, mantissa_toNat]
  have hu := or_fraction_toNat (t := (s &&& 0x7fffff) >>> 13) hexp (by omega) (by omega)
  rw [hfraction] at hu
  unfold float2HalfBits
  simp only [exp_toInt]
  rw [if_neg hne, if_neg (by omega), if_pos (by omega)]
  refine halves_roundHalf s (N := 2 ^ 23 + s.toNat % 2 ^ 23) (E := biased s - 1) (k := 12)
    (e := biased s - 113) (sign_toNat s) (absValue_normal s (by omega)) (by rw [hu]; omega)
    (by omega) (by omega) (by omega) (by omega) ?_ ?_
  · rw [mantissa_toNat]
    omega
  · rw [mantissa_toNat]
    simp only [Bool.false_eq_true, false_or]
    omega

/-- A `float` below the normal numbers of a `half`, of which `rshift` more bits are cut off. -/
theorem halves_subnormal (hlo : 82 ≤ biased s) (hhi : biased s ≤ 112) :
    Halves s (float2HalfBits s) := by
  have hM := fraction_lt s
  have hne := rest_ne_zero s (show 1 ≤ biased s by omega)
  obtain ⟨r, hr, hr₁, hr₃₁⟩ : ∃ r, (-14 - ((biased s : ℤ) - 127)).toNat = r ∧ 1 ≤ r ∧ r ≤ 31 :=
    ⟨_, rfl, by omega, by omega⟩
  have hN : ((s &&& (0x7fffff : BitVec 32)) ||| ((1 : BitVec 32) <<< 23)).toNat =
      2 ^ 23 + s.toNat % 2 ^ 23 := by
    rw [BitVec.toNat_or, mantissa_toNat, Nat.lor_comm]
    exact or_eq_add (a := 1) hM
  have hdropped : ((((s &&& (0x7fffff : BitVec 32)) ||| ((1 : BitVec 32) <<< 23)) &&&
      (((1 : BitVec 32) <<< r) - 1)) != 0) = true ↔ (2 ^ 23 + s.toNat % 2 ^ 23) % 2 ^ r ≠ 0 := by
    rw [bne_zero_iff, toNat_and_mask (toNat_shiftLeft_sub_one hr₃₁), hN]
  have hkept : (((s &&& (0x7fffff : BitVec 32)) ||| ((1 : BitVec 32) <<< 23)) >>> r).toNat =
      (2 ^ 23 + s.toNat % 2 ^ 23) / 2 ^ r := by
    rw [toNat_ushiftRight_eq_div, hN]
  have hdiv : ∀ k, (2 ^ 23 + s.toNat % 2 ^ 23) / 2 ^ r / 2 ^ k =
      (2 ^ 23 + s.toNat % 2 ^ 23) / 2 ^ (r + k) := fun k => by
    rw [Nat.div_div_eq_div_mul, ← pow_add]
  have hhalf : (2 ^ 23 + s.toNat % 2 ^ 23) / 2 ^ r ≤ (2 ^ 23 + s.toNat % 2 ^ 23) / 2 ^ 1 :=
    Nat.div_le_div_left (Nat.pow_le_pow_right Nat.two_pos hr₁) (by decide)
  unfold float2HalfBits
  simp only [exp_toInt, hr]
  rw [if_neg hne, if_neg (by omega), if_neg (by omega), if_pos (by omega)]
  refine halves_roundHalf s (N := 2 ^ 23 + s.toNat % 2 ^ 23) (E := biased s - 1) (k := r + 12)
    (e := 0) (sign_toNat s) (absValue_normal s (by omega)) ?_ ?_ (.inl rfl) (by omega) (by omega)
    ?_ ?_
  · rw [toNat_and_mask (k := 10) rfl, BitVec.toNat_setWidth, toNat_ushiftRight_eq_div, hkept,
      Nat.add_assoc, ← hdiv]
    omega
  · rw [Nat.add_assoc, ← hdiv]
    omega
  · rw [hkept, hdiv]
  · rw [hdropped, hkept, pow_add, Nat.mod_mul]
    have := Nat.two_pow_pos r
    simp only [ne_eq, Nat.add_eq_zero_iff, Nat.mul_eq_zero, this.ne', false_or]
    exact not_and_or.symm

theorem halves_tiny (hE : biased s < 82) : Halves s (float2HalfBits s) := by
  have hsign : (((s >>> 16) &&& 0x8000).setWidth 16).toNat = single.signBit s.toNat * 2 ^ 15 + 0 := by
    rw [sign_toNat, Nat.add_zero]
  have hzero : (roundHalf (((s >>> 16) &&& 0x8000).setWidth 16) 0 0 false).toNat =
      single.signBit s.toNat * 2 ^ 15 + 0 := by
    rw [roundHalf_toNat (sign_toNat s) (by decide)]
    rfl
  unfold float2HalfBits
  simp only [exp_toInt]
  split
  · exact halves_of_toNat s hsign (Nat.zero_le _) (rounds_tiny s hE)
  · rw [if_neg (by omega), if_neg (by omega), if_neg (by omega)]
    exact halves_of_toNat s hzero (Nat.zero_le _) (rounds_tiny s hE)

theorem halves_float2HalfBits (hE : biased s ≤ 142) : Halves s (float2HalfBits s) := by
  rcases Nat.lt_or_ge (biased s) 82 with htiny | hlo
  · exact halves_tiny s htiny
  · rcases Nat.lt_or_ge (biased s) 113 with hsub | hnormal
    · exact halves_subnormal s hlo (by omega)
    · exact halves_normal s hnormal hE

/-- What has too high an exponent is infinite. -/
theorem float2HalfBits_toNat_overflow (hE : 143 ≤ biased s) (hs : ¬single.IsNaN s.toNat) :
    (float2HalfBits s).toNat = single.signBit s.toNat * 2 ^ 15 + 0x7c00 := by
  have hM := fraction_lt s
  have hne := rest_ne_zero s (show 1 ≤ biased s by omega)
  have hnumber : ¬((biased s : ℤ) - 127 = 128 ∧ s &&& 0x7fffff ≠ 0) := by
    rintro ⟨hexp, hmantissa⟩
    rw [ne_eq, eq_zero_iff_toNat, mantissa_toNat] at hmantissa
    refine hs ?_
    show 255 * 2 ^ 23 < single.rest s.toNat
    rw [rest_eq]
    omega
  unfold float2HalfBits
  simp only [exp_toInt]
  rw [if_neg hne, if_pos (by omega), if_neg hnumber, BitVec.toNat_or, sign_toNat,
    show (0x7c00 : BitVec 16).toNat = 0x7c00 from rfl, or_eq_add (by omega)]

/-- The middle between the greatest finite `half` and what would be the next. -/
theorem middle_half : half.absValue 0x7bff + half.absValue (0x7bff + 1) = 2 * 65520 := by
  have hlast : magnitude 10 0x7bff = 2047 * 2 ^ 29 :=
    magnitude_add (m := 10) (e := 29) (q := 2047) (by omega) (by omega)
  have hnext : magnitude 10 (0x7bff + 1) = 2048 * 2 ^ 29 :=
    magnitude_add (m := 10) (e := 29) (q := 2048) (by omega) (by omega)
  have hunit : half.unit = 2 ^ (-24 : ℤ) := rfl
  rw [absValue, absValue, show half.fracBits = 10 from rfl, hlast, hnext, hunit]
  norm_num

theorem abs_value_single : |single.value s.toNat| = single.absValue (single.rest s.toNat) :=
  abs_signed _ (single.absValue_nonneg _)

/-- The absolute values from that middle on are those that round to infinity. -/
theorem Halves.isFinite_iff {p : BitVec 16} (h : Halves s p) :
    half.IsFinite p.toNat ↔ |single.value s.toNat| < 65520 := by
  have hle := h.rounds.le_iff half.strictMono_absValue (show 0x7bff % 2 = 1 from rfl)
  rw [middle_half, ← abs_value_single] at hle
  constructor
  · intro hfinite
    have := hle.mp (Nat.le_of_lt_succ (show half.rest p.toNat < 0x7bff + 1 from hfinite))
    linarith
  · intro hlt
    show half.rest p.toNat < 0x7bff + 1
    exact Nat.lt_succ_of_le (hle.mpr (by linarith))

/-- With so high an exponent a number is beyond that middle. -/
theorem le_abs_value_of_biased (hE : 143 ≤ biased s) : 65520 ≤ |single.value s.toNat| := by
  have hmagnitude : 2 ^ 23 * 2 ^ 142 ≤ magnitude 23 (single.rest s.toNat) := by
    rw [← magnitude_add (m := 23) (e := 142) (q := 2 ^ 23) (by omega) (.inr le_rfl)]
    refine (strictMono_magnitude 23).monotone ?_
    rw [rest_eq]
    omega
  have hunit : (2 ^ 23 * 2 ^ 142 : ℚ) * single.unit = 65536 := by
    show (2 ^ 23 * 2 ^ 142 : ℚ) * 2 ^ (-149 : ℤ) = 65536
    norm_num
  have hle : (2 ^ 23 * 2 ^ 142 : ℚ) * single.unit ≤ single.absValue (single.rest s.toNat) :=
    mul_le_mul_of_nonneg_right (by exact_mod_cast hmagnitude) single.unit_pos.le
  rw [abs_value_single]
  linarith

theorem signBit_float2HalfBits (hs : ¬single.IsNaN s.toNat) :
    half.signBit (float2HalfBits s).toNat = single.signBit s.toNat := by
  rcases Nat.lt_or_ge (biased s) 143 with hlt | hge
  · exact (halves_float2HalfBits s (by omega)).sign
  · have hsign := single.signBit_lt s.toNat
    rw [float2HalfBits_toNat_overflow s hge hs]
    show (single.signBit s.toNat * 2 ^ 15 + 0x7c00) / 2 ^ 15 % 2 = single.signBit s.toNat
    omega

theorem isInfinite_float2HalfBits (hs : ¬single.IsNaN s.toNat)
    (h : single.IsInfinite s.toNat ∨ 65520 ≤ |single.value s.toNat|) :
    half.IsInfinite (float2HalfBits s).toNat := by
  rcases Nat.lt_or_ge (biased s) 143 with hlt | hge
  · have hhalves := halves_float2HalfBits s (by omega)
    have hfinite : ¬single.IsInfinite s.toNat := fun hinf => by
      have hM := fraction_lt s
      have hrest : single.rest s.toNat = 255 * 2 ^ 23 := hinf
      rw [rest_eq] at hrest
      omega
    have hlarge : ¬half.IsFinite (float2HalfBits s).toNat := fun hp =>
      ((hhalves.isFinite_iff).mp hp).not_ge (h.resolve_left hfinite)
    exact Nat.le_antisymm hhalves.rest_le (Nat.le_of_not_lt hlarge)
  · have hsign := single.signBit_lt s.toNat
    show (float2HalfBits s).toNat % 2 ^ 15 = 0x7c00
    rw [float2HalfBits_toNat_overflow s hge hs]
    omega

theorem nearest_float2HalfBits (h : |single.value s.toNat| < 65520) :
    half.Nearest (single.value s.toNat) (float2HalfBits s).toNat := by
  have hE : biased s ≤ 142 := by
    by_contra hE
    exact (le_abs_value_of_biased s (by omega)).not_gt h
  have hhalves := halves_float2HalfBits s hE
  have hnearest := nearest_of_roundsEven (single.absValue_nonneg _) hhalves.rounds
    ((hhalves.isFinite_iff).mpr h)
  rwa [hhalves.sign] at hnearest

end Float

/-! ### To `float` -/

/-- The loop ends by its condition: bit 10 is the highest bit of what it leaves. -/
theorem normalize_toNat (fuel : ℕ) (mantissa exp : BitVec 32) (hlt : mantissa.toNat < 2 ^ 11)
    (hfuel : 2 ^ 10 ≤ mantissa.toNat * 2 ^ fuel) (hexp : fuel ≤ exp.toNat) :
    ∃ k ≤ fuel, (normalize fuel mantissa exp).1.toNat = mantissa.toNat * 2 ^ k ∧
      (normalize fuel mantissa exp).2.toNat = exp.toNat - k ∧
      2 ^ 10 ≤ mantissa.toNat * 2 ^ k ∧ mantissa.toNat * 2 ^ k < 2 ^ 11 := by
  induction fuel generalizing mantissa exp with
  | zero => exact ⟨0, le_rfl, by simp [normalize], by simp [normalize], hfuel, by omega⟩
  | succ fuel ih =>
      have hbit : mantissa &&& ((1 : BitVec 32) <<< 10) = 0 ↔ mantissa.toNat < 2 ^ 10 := by
        rw [eq_zero_iff_toNat, toNat_and_bit (k := 10) rfl]
        omega
      unfold normalize
      split
      · rename_i h
        have hshift : (mantissa <<< 1).toNat = mantissa.toNat * 2 := by
          rw [BitVec.toNat_shiftLeft, Nat.shiftLeft_eq]
          have := hbit.mp h
          omega
        have hpred : (exp - 1).toNat = exp.toNat - 1 :=
          BitVec.toNat_sub_of_le (show 1 ≤ exp.toNat by omega)
        have hdouble : ∀ k, mantissa.toNat * 2 * 2 ^ k = mantissa.toNat * 2 ^ (k + 1) := fun k => by
          rw [pow_succ']
          ring
        obtain ⟨k, hk, hm, he, hle, hlt'⟩ := ih (mantissa <<< 1) (exp - 1)
          (by rw [hshift]; have := hbit.mp h; omega) (by rw [hshift, hdouble]; exact hfuel)
          (by rw [hpred]; omega)
        rw [hshift, hdouble] at hm hle hlt'
        exact ⟨k + 1, Nat.succ_le_succ hk, hm, by rw [he, hpred]; omega, hle, hlt'⟩
      · rename_i h
        rw [hbit] at h
        exact ⟨0, Nat.zero_le _, by simp, by simp, by omega, by omega⟩

/-- Sign, exponent and fraction of a `float`. -/
theorem join_toNat (sign exp mantissa : BitVec 32) (hsign : sign.toNat < 2)
    (hexp : exp.toNat < 2 ^ 8) (hmantissa : mantissa.toNat < 2 ^ 10) :
    ((sign <<< 31) ||| (exp <<< 23) ||| (mantissa <<< 13)).toNat =
      sign.toNat * 2 ^ 31 + (exp.toNat * 2 ^ 23 + mantissa.toNat * 2 ^ 13) := by
  have hs : (sign <<< 31).toNat = sign.toNat * 2 ^ 31 := by
    rw [BitVec.toNat_shiftLeft, Nat.shiftLeft_eq]
    omega
  have he : (exp <<< 23).toNat = exp.toNat * 2 ^ 23 := by
    rw [BitVec.toNat_shiftLeft, Nat.shiftLeft_eq]
    omega
  have hm : (mantissa <<< 13).toNat = mantissa.toNat * 2 ^ 13 := by
    rw [BitVec.toNat_shiftLeft, Nat.shiftLeft_eq]
    omega
  rw [BitVec.toNat_or, BitVec.toNat_or, hs, he, hm, Nat.or_assoc,
    or_eq_add (k := 23) (a := exp.toNat) (by omega), or_eq_add (by omega)]

section Half

variable (h : BitVec 16)

/-- What is returned for a number: the same sign and the same absolute value. -/
structure Floats (f : BitVec 32) : Prop where
  sign : single.signBit f.toNat = half.signBit h.toNat
  finite : single.IsFinite f.toNat
  abs_eq : single.absValue (single.rest f.toNat) = half.absValue (half.rest h.toNat)

theorem floats_of_toNat {f : BitVec 32} {r : ℕ}
    (hf : f.toNat = half.signBit h.toNat * 2 ^ 31 + r) (hr : r < 255 * 2 ^ 23)
    (hmagnitude : magnitude 23 r = magnitude 10 (half.rest h.toNat) * 2 ^ 125) : Floats h f := by
  have hsign := half.signBit_lt h.toNat
  have hrest : single.rest f.toNat = r := by
    show f.toNat % 2 ^ 31 = r
    omega
  refine ⟨?_, ?_, ?_⟩
  · show f.toNat / 2 ^ 31 % 2 = half.signBit h.toNat
    omega
  · show single.rest f.toNat < 255 * 2 ^ 23
    rwa [hrest]
  · rw [hrest, absValue, absValue, unit_half, show single.fracBits = 23 from rfl,
      show half.fracBits = 10 from rfl, hmagnitude]
    push_cast
    ring

theorem half_sign_toNat : (((h.setWidth 32) >>> 15) &&& 1).toNat = half.signBit h.toNat := by
  rw [toNat_and_mask (k := 1) rfl, toNat_ushiftRight_eq_div, BitVec.toNat_setWidth]
  show h.toNat % 2 ^ 32 / 2 ^ 15 % 2 ^ 1 = h.toNat / 2 ^ 15 % 2
  omega

theorem half_exp_toNat : (((h.setWidth 32) >>> 10) &&& 0x1f).toNat = h.toNat / 2 ^ 10 % 2 ^ 5 := by
  rw [toNat_and_mask (k := 5) rfl, toNat_ushiftRight_eq_div, BitVec.toNat_setWidth]
  omega

theorem half_mantissa_toNat : ((h.setWidth 32) &&& 0x3ff).toNat = h.toNat % 2 ^ 10 := by
  rw [toNat_and_mask (k := 10) rfl, BitVec.toNat_setWidth]
  omega

theorem half_fraction_lt : h.toNat % 2 ^ 10 < 2 ^ 10 := Nat.mod_lt _ (by decide)

theorem half_rest_eq :
    half.rest h.toNat = h.toNat / 2 ^ 10 % 2 ^ 5 * 2 ^ 10 + h.toNat % 2 ^ 10 := by
  show h.toNat % 2 ^ 15 = _
  omega

/-- A normal `half`. -/
theorem floats_normal {exp : BitVec 32} {e : ℕ} (he : h.toNat / 2 ^ 10 % 2 ^ 5 = e + 1)
    (hlt : e + 1 < 31) (hexp : exp.toNat = e + 1) :
    Floats h (((((h.setWidth 32) >>> 15) &&& 1) <<< 31) ||| ((exp + 112) <<< 23) |||
      (((h.setWidth 32) &&& 0x3ff) <<< 13)) := by
  have hm := half_fraction_lt h
  have hsign := half.signBit_lt h.toNat
  have hbiased : (exp + 112).toNat = e + 113 := by
    rw [BitVec.toNat_add, hexp, show (112 : BitVec 32).toNat = 112 from rfl]
    omega
  have hjoin := join_toNat (((h.setWidth 32) >>> 15) &&& 1) (exp + 112)
    ((h.setWidth 32) &&& 0x3ff) (by rw [half_sign_toNat]; exact hsign)
    (by rw [hbiased]; omega) (by rw [half_mantissa_toNat]; exact hm)
  rw [half_sign_toNat, hbiased, half_mantissa_toNat] at hjoin
  refine floats_of_toNat h hjoin (by omega) ?_
  have hsingle := magnitude_add (m := 23) (e := e + 112) (q := (2 ^ 10 + h.toNat % 2 ^ 10) * 2 ^ 13)
    (by omega) (.inr (by omega))
  have hhalf := magnitude_add (m := 10) (e := e) (q := 2 ^ 10 + h.toNat % 2 ^ 10) (by omega)
    (.inr (by omega))
  rw [half_rest_eq, he, show (e + 1) * 2 ^ 10 + h.toNat % 2 ^ 10 =
      e * 2 ^ 10 + (2 ^ 10 + h.toNat % 2 ^ 10) by omega, hhalf,
    show (e + 113) * 2 ^ 23 + h.toNat % 2 ^ 10 * 2 ^ 13 =
      (e + 112) * 2 ^ 23 + (2 ^ 10 + h.toNat % 2 ^ 10) * 2 ^ 13 by omega, hsingle, pow_add]
  ring

/-- A subnormal `half`, whose fraction is shifted until it has a leading one. -/
theorem floats_subnormal {exp : BitVec 32} (he : h.toNat / 2 ^ 10 % 2 ^ 5 = 0) (hexp : exp.toNat = 0)
    (hm : h.toNat % 2 ^ 10 ≠ 0) :
    Floats h (((((h.setWidth 32) >>> 15) &&& 1) <<< 31) |||
      ((normalize 10 ((h.setWidth 32) &&& 0x3ff) (exp + 113)).2 <<< 23) |||
      (((normalize 10 ((h.setWidth 32) &&& 0x3ff) (exp + 113)).1 &&& 0x3ff) <<< 13)) := by
  have hlt := half_fraction_lt h
  have hsign := half.signBit_lt h.toNat
  have hstart : (exp + 113).toNat = 113 := by
    rw [BitVec.toNat_add, hexp, show (113 : BitVec 32).toNat = 113 from rfl]
  obtain ⟨k, hk, hmantissa, hshifted, hlo, hhi⟩ := normalize_toNat 10
    ((h.setWidth 32) &&& 0x3ff) (exp + 113) (by rw [half_mantissa_toNat]; omega)
    (by rw [half_mantissa_toNat]; omega) (by rw [hstart]; decide)
  rw [half_mantissa_toNat] at hmantissa hlo hhi
  rw [hstart] at hshifted
  have hfraction : ((normalize 10 ((h.setWidth 32) &&& 0x3ff) (exp + 113)).1 &&& 0x3ff).toNat =
      h.toNat % 2 ^ 10 * 2 ^ k - 2 ^ 10 := by
    rw [toNat_and_mask (k := 10) rfl, hmantissa]
    omega
  have hjoin := join_toNat (((h.setWidth 32) >>> 15) &&& 1)
    (normalize 10 ((h.setWidth 32) &&& 0x3ff) (exp + 113)).2
    ((normalize 10 ((h.setWidth 32) &&& 0x3ff) (exp + 113)).1 &&& 0x3ff)
    (by rw [half_sign_toNat]; exact hsign) (by rw [hshifted]; omega) (by rw [hfraction]; omega)
  rw [half_sign_toNat, hshifted, hfraction] at hjoin
  refine floats_of_toNat h hjoin (by omega) ?_
  have hsingle := magnitude_add (m := 23) (e := 112 - k) (q := h.toNat % 2 ^ 10 * 2 ^ k * 2 ^ 13)
    (by omega) (.inr (by omega))
  have hhalf := magnitude_add (m := 10) (e := 0) (q := h.toNat % 2 ^ 10) (by omega) (.inl rfl)
  have hpow : 2 ^ k * 2 ^ 13 * 2 ^ (112 - k) = 2 ^ 125 := by
    rw [← pow_add, ← pow_add]
    congr 1
    omega
  rw [half_rest_eq, he, hhalf, show (113 - k) * 2 ^ 23 +
      (h.toNat % 2 ^ 10 * 2 ^ k - 2 ^ 10) * 2 ^ 13 =
      (112 - k) * 2 ^ 23 + h.toNat % 2 ^ 10 * 2 ^ k * 2 ^ 13 by omega, hsingle, ← hpow]
  ring

theorem floats_halfBits2Float (hfinite : half.IsFinite h.toNat) : Floats h (halfBits2Float h) := by
  have hrest : half.rest h.toNat < 31 * 2 ^ 10 := hfinite
  rw [half_rest_eq] at hrest
  have hexp := half_exp_toNat h
  have hzero : ((h.setWidth 32) >>> 10) &&& 0x1f = 0 ↔ h.toNat / 2 ^ 10 % 2 ^ 5 = 0 := by
    rw [eq_zero_iff_toNat, hexp]
  have hmantissa : ((h.setWidth 32) &&& 0x3ff) = 0 ↔ h.toNat % 2 ^ 10 = 0 := by
    rw [eq_zero_iff_toNat, half_mantissa_toNat]
  have hnormal : ((0 : BitVec 32) < ((h.setWidth 32) >>> 10) &&& 0x1f ∧
      ((h.setWidth 32) >>> 10) &&& 0x1f < (31 : BitVec 32)) ↔
      0 < h.toNat / 2 ^ 10 % 2 ^ 5 := by
    rw [BitVec.lt_def, BitVec.lt_def, hexp, show (0 : BitVec 32).toNat = 0 from rfl,
      show (31 : BitVec 32).toNat = 31 from rfl]
    omega
  unfold halfBits2Float
  simp only [hnormal, hzero, ne_eq, hmantissa]
  split
  · rename_i hpos
    obtain ⟨e, he⟩ := Nat.exists_eq_add_one.mpr hpos
    exact floats_normal h he (by omega) (by rw [hexp, he])
  · rename_i hpos
    have he : h.toNat / 2 ^ 10 % 2 ^ 5 = 0 := by omega
    rw [if_pos he]
    split
    · rename_i hm
      exact floats_subnormal h he (by rw [hexp, he]) hm
    · rename_i hm
      have hm' : h.toNat % 2 ^ 10 = 0 := not_not.mp hm
      have hsign := half_sign_toNat h
      have hlt := half.signBit_lt h.toNat
      refine floats_of_toNat h (r := 0) ?_ (by decide) ?_
      · rw [BitVec.toNat_shiftLeft, hsign, Nat.shiftLeft_eq]
        omega
      · rw [half_rest_eq, he, hm', Nat.zero_mul, magnitude_zero, magnitude_zero, Nat.zero_mul]

theorem halfBits2Float_toNat_infinite (hinf : half.IsInfinite h.toNat) :
    (halfBits2Float h).toNat = half.signBit h.toNat * 2 ^ 31 + 255 * 2 ^ 23 := by
  have hm := half_fraction_lt h
  have hrest : half.rest h.toNat = 31 * 2 ^ 10 := hinf
  rw [half_rest_eq] at hrest
  have hexp := half_exp_toNat h
  have he : ((h.setWidth 32) >>> 10) &&& 0x1f = 31 :=
    BitVec.eq_of_toNat_eq (hexp.trans (show _ = 31 by omega))
  have hmantissa : ((h.setWidth 32) &&& 0x3ff) = 0 := by
    rw [eq_zero_iff_toNat, half_mantissa_toNat]
    omega
  have hlt := half.signBit_lt h.toNat
  have hsign : ((((h.setWidth 32) >>> 15) &&& 1) <<< 31).toNat = half.signBit h.toNat * 2 ^ 31 := by
    rw [BitVec.toNat_shiftLeft, half_sign_toNat, Nat.shiftLeft_eq]
    omega
  unfold halfBits2Float
  simp only [he, hmantissa]
  rw [if_neg (by decide), if_neg (by decide), if_pos trivial, if_neg (not_not_intro rfl),
    BitVec.toNat_or, hsign, Nat.lor_comm]
  exact or_eq_add (by decide)

theorem Floats.value_eq {f : BitVec 32} (hf : Floats h f) :
    single.value f.toNat = half.value h.toNat := by
  rw [value, value, hf.sign, hf.abs_eq]

/-- A finite `half` is below the middle that rounds to infinity. -/
theorem abs_value_half_lt (hfinite : half.IsFinite h.toNat) : |half.value h.toNat| < 65520 := by
  have hle : half.absValue (half.rest h.toNat) ≤ half.absValue 0x7bff :=
    half.strictMono_absValue.monotone (Nat.le_of_lt_succ hfinite)
  have hnext := half.strictMono_absValue (Nat.lt_succ_self 0x7bff)
  have hmiddle := middle_half
  rw [value, abs_signed _ (half.absValue_nonneg _)]
  linarith

theorem half_ext {p q : BitVec 16} (hsign : half.signBit p.toNat = half.signBit q.toNat)
    (hrest : half.rest p.toNat = half.rest q.toNat) : p = q := by
  refine BitVec.eq_of_toNat_eq ?_
  change p.toNat / 2 ^ 15 % 2 = q.toNat / 2 ^ 15 % 2 at hsign
  change p.toNat % 2 ^ 15 = q.toNat % 2 ^ 15 at hrest
  omega

/-- What is returned for infinity is infinity. -/
theorem halfBits2Float_infinite (hinf : half.IsInfinite h.toNat) :
    single.signBit (halfBits2Float h).toNat = half.signBit h.toNat ∧
      single.IsInfinite (halfBits2Float h).toNat := by
  have hlt := half.signBit_lt h.toNat
  have hf := halfBits2Float_toNat_infinite h hinf
  constructor
  · show (halfBits2Float h).toNat / 2 ^ 31 % 2 = half.signBit h.toNat
    omega
  · show (halfBits2Float h).toNat % 2 ^ 31 = 255 * 2 ^ 23
    omega

theorem float2HalfBits_halfBits2Float (hh : ¬half.IsNaN h.toNat) :
    float2HalfBits (halfBits2Float h) = h := by
  rcases Nat.lt_or_eq_of_le (Nat.le_of_not_lt hh) with hfinite | hinf
  · have hf := floats_halfBits2Float h hfinite
    have hnumber : ¬single.IsNaN (halfBits2Float h).toNat := Nat.lt_asymm hf.finite
    have hsign := (signBit_float2HalfBits _ hnumber).trans hf.sign
    have hnearest := nearest_float2HalfBits (halfBits2Float h)
      (by rw [hf.value_eq]; exact abs_value_half_lt h hfinite)
    rw [hf.value_eq] at hnearest
    exact half_ext hsign (hnearest.eq_of_value hfinite hsign)
  · obtain ⟨hsign, hinfinite⟩ := halfBits2Float_infinite h hinf
    have hnumber : ¬single.IsNaN (halfBits2Float h).toNat := hinfinite.not_gt
    refine half_ext ((signBit_float2HalfBits _ hnumber).trans hsign) ?_
    exact (isInfinite_float2HalfBits _ hnumber (.inl hinfinite)).trans hinf.symm

end Half

/--
**The conversions are those of IEEE arithmetic**: to `half` a number is rounded to the nearest,
or to infinity from the middle above the greatest on, and to `float` nothing is lost.
-/
theorem halfFloat_conversions :
    (∀ s : BitVec 32, ¬single.IsNaN s.toNat →
      half.signBit (float2HalfBits s).toNat = single.signBit s.toNat ∧
      (single.IsInfinite s.toNat ∨ 65520 ≤ |single.value s.toNat| →
        half.IsInfinite (float2HalfBits s).toNat) ∧
      (single.IsFinite s.toNat → |single.value s.toNat| < 65520 →
        half.Nearest (single.value s.toNat) (float2HalfBits s).toNat)) ∧
    ∀ h : BitVec 16, ¬half.IsNaN h.toNat →
      single.signBit (halfBits2Float h).toNat = half.signBit h.toNat ∧
      (half.IsFinite h.toNat → single.IsFinite (halfBits2Float h).toNat ∧
        single.value (halfBits2Float h).toNat = half.value h.toNat) ∧
      (half.IsInfinite h.toNat → single.IsInfinite (halfBits2Float h).toNat) ∧
      float2HalfBits (halfBits2Float h) = h := by
  constructor
  · exact fun s hs => ⟨signBit_float2HalfBits s hs, isInfinite_float2HalfBits s hs,
      fun _ hlt => nearest_float2HalfBits s hlt⟩
  · intro h hh
    refine ⟨?_, fun hfinite => ?_, fun hinf => (halfBits2Float_infinite h hinf).2,
      float2HalfBits_halfBits2Float h hh⟩
    · rcases Nat.lt_or_eq_of_le (Nat.le_of_not_lt hh) with hfinite | hinf
      · exact (floats_halfBits2Float h hfinite).sign
      · exact (halfBits2Float_infinite h hinf).1
    · have hf := floats_halfBits2Float h hfinite
      exact ⟨hf.finite, hf.value_eq⟩

/-- A tie, `1 + 1 / 2048` between `1` and the next `half`, which goes to the even one; and the
least `half` on the way back. -/
theorem halfFloat_conversions_tie :
    half.Nearest (2049 / 2048) 0x3c00 ∧ float2HalfBits (halfBits2Float 1) = 1 := by
  have htie := (halfFloat_conversions.1 0x3f801000 (Nat.not_lt.mpr (by decide))).2.2
    (show single.rest 0x3f801000 < single.infinity by decide) (by decide +kernel)
  have hvalue : single.value 0x3f801000 = 2049 / 2048 := by decide +kernel
  refine ⟨?_, (halfFloat_conversions.2 1 (Nat.not_lt.mpr (by decide))).2.2.2⟩
  rw [← hvalue]
  exact htie

/-- The least `float` that is infinite as a `half`. -/
example : float2HalfBits 0x477ff000 = 0x7c00 := by decide

end DeepInc.CpuReducer
