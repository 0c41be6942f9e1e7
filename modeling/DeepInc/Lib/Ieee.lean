/-
Rounding to binary floating point.

`round p x` is the number with a significand of `p` bits that is nearest to `x`, ties going
to the even significand, and `sqrt p x` the one that is nearest to the square root of `x`.
The exponent has no bounds, but for `float`, which has the subnormal numbers of the format.
-/
import Mathlib.Data.Int.Log
import Mathlib.Data.Rat.Floor
import Mathlib.Tactic.Linarith

namespace Ieee

/-- The nearest integer, the even one of two. -/
def roundEven (x : ℚ) : ℤ :=
  let k := ⌊x⌋
  if x - k < 1 / 2 then k
  else if 1 / 2 < x - k then k + 1
  else k + k % 2

/-- What the last bit of a significand of `p` bits counts. -/
def ulp (p : ℕ) (x : ℚ) : ℚ := 2 ^ (Int.log 2 |x| - (p - 1 : ℤ))

/-- The nearest number with a significand of `p` bits. -/
def round (p : ℕ) (x : ℚ) : ℚ := (roundEven (x / ulp p x) : ℚ) * ulp p x

/-- The integer nearest to the square root, the even one of two. -/
def sqrtEven (x : ℚ) : ℕ :=
  let r := Nat.sqrt ⌊x⌋₊
  if x < (r + 1 / 2) ^ 2 then r
  else if (r + 1 / 2) ^ 2 < x then r + 1
  else r + r % 2

/-- What the last bit of a square root of `p` bits counts. -/
def sqrtUlp (p : ℕ) (x : ℚ) : ℚ := 2 ^ (Int.log 2 x / 2 - (p - 1 : ℤ))

/-- The number with a significand of `p` bits that is nearest to the square root. -/
def sqrt (p : ℕ) (x : ℚ) : ℚ := sqrtEven (x / sqrtUlp p x ^ 2) * sqrtUlp p x

/-- `double`. -/
def double (x : ℚ) : ℚ := round 53 x

/-- `float`, as far as its numbers are normal. -/
def single (x : ℚ) : ℚ := round 24 x

/-- `float`: below the normal numbers, the distance of two numbers stays the same. -/
def float (x : ℚ) : ℚ :=
  if |x| < 2 ^ (-126 : ℤ) then (roundEven (x / 2 ^ (-149 : ℤ)) : ℚ) * 2 ^ (-149 : ℤ) else single x

/-! ### Integers -/

section RoundEven

variable {x y : ℚ} {m : ℤ}

theorem roundEven_eq_floor_or (x : ℚ) : roundEven x = ⌊x⌋ ∨ roundEven x = ⌊x⌋ + 1 := by
  unfold roundEven
  simp only
  split
  · exact .inl rfl
  · split
    · exact .inr rfl
    · rcases Int.emod_two_eq_zero_or_one ⌊x⌋ with h | h
      · exact .inl (by rw [h, add_zero])
      · exact .inr (by rw [h])

theorem le_roundEven (h : m ≤ x) : m ≤ roundEven x := by
  have hfloor : m ≤ ⌊x⌋ := Int.le_floor.mpr h
  rcases roundEven_eq_floor_or x with hx | hx <;> omega

@[simp] theorem roundEven_intCast (k : ℤ) : roundEven k = k := by
  unfold roundEven
  simp only
  rw [Int.floor_intCast, sub_self, if_pos (by norm_num)]

theorem roundEven_le (h : x ≤ m) : roundEven x ≤ m := by
  rcases h.lt_or_eq with hlt | rfl
  · have hfloor : ⌊x⌋ < m := Int.floor_lt.mpr hlt
    rcases roundEven_eq_floor_or x with hx | hx <;> omega
  · rw [roundEven_intCast]

theorem roundEven_mono (h : x ≤ y) : roundEven x ≤ roundEven y := by
  rcases (Int.floor_le_floor h).lt_or_eq with hlt | heq
  · have hy : ⌊y⌋ ≤ roundEven y := le_roundEven (Int.floor_le y)
    rcases roundEven_eq_floor_or x with hx | hx <;> omega
  · -- between the same integers, the even one is chosen at a half and the upper one above
    have hbits := Int.emod_two_eq_zero_or_one ⌊y⌋
    unfold roundEven
    simp only [heq]
    by_cases hy : y - ⌊y⌋ < 1 / 2
    · rw [if_pos hy, if_pos (by linarith)]
    · rw [if_neg hy]
      by_cases hy' : 1 / 2 < y - ⌊y⌋
      · rw [if_pos hy']
        split
        · omega
        · split <;> omega
      · rw [if_neg hy']
        split
        · omega
        · rw [if_neg (by linarith)]

end RoundEven

/-! ### Rounding keeps the order -/

section Round

variable {p : ℕ} {x y : ℚ}

theorem ulp_pos (p : ℕ) (x : ℚ) : 0 < ulp p x := zpow_pos (by norm_num) _

@[simp] theorem round_zero (p : ℕ) : round p 0 = 0 := by
  have h : roundEven 0 = 0 := roundEven_intCast 0
  simp [round, h]

/-- A number is rounded to no less than the power of two at or below it. -/
theorem zpow_log_le_round (hp : 1 ≤ p) (hx : 0 < x) : (2 : ℚ) ^ Int.log 2 x ≤ round p x := by
  have hle := Int.zpow_log_le_self (by norm_num) hx (b := 2)
  have hsplit : (2 : ℚ) ^ Int.log 2 x = ((2 ^ (p - 1) : ℤ) : ℚ) * ulp p x := by
    unfold ulp
    rw [abs_of_pos hx, Int.cast_pow, Int.cast_ofNat, ← zpow_natCast, ← zpow_add₀ (by norm_num)]
    congr 1
    omega
  unfold round
  rw [hsplit]
  refine mul_le_mul_of_nonneg_right (Int.cast_le.mpr (le_roundEven ?_)) (ulp_pos p x).le
  rw [le_div_iff₀ (ulp_pos p x), ← hsplit]
  exact hle

/-- And to no more than the one above it. -/
theorem round_le_zpow_log (hx : 0 < x) : round p x ≤ (2 : ℚ) ^ (Int.log 2 x + 1) := by
  have hlt := Int.lt_zpow_succ_log_self (by norm_num) x (b := 2)
  have hsplit : (2 : ℚ) ^ (Int.log 2 x + 1) = ((2 ^ p : ℤ) : ℚ) * ulp p x := by
    unfold ulp
    rw [abs_of_pos hx, Int.cast_pow, Int.cast_ofNat, ← zpow_natCast, ← zpow_add₀ (by norm_num)]
    congr 1
    omega
  unfold round
  rw [hsplit]
  refine mul_le_mul_of_nonneg_right (Int.cast_le.mpr (roundEven_le ?_)) (ulp_pos p x).le
  rw [div_le_iff₀ (ulp_pos p x), ← hsplit]
  exact hlt.le

/-- **Rounding keeps the order** of numbers that are not negative. -/
theorem round_mono (hp : 1 ≤ p) (hx : 0 ≤ x) (h : x ≤ y) : round p x ≤ round p y := by
  rcases hx.eq_or_lt with rfl | hx
  · rw [round_zero]
    rcases h.eq_or_lt with rfl | hy
    · rw [round_zero]
    · exact (zpow_pos (by norm_num) _).le.trans (zpow_log_le_round hp hy)
  · have hy : 0 < y := hx.trans_le h
    rcases (Int.log_mono_right hx h (b := 2)).lt_or_eq with hlt | heq
    · calc round p x ≤ (2 : ℚ) ^ (Int.log 2 x + 1) := round_le_zpow_log hx
        _ ≤ (2 : ℚ) ^ Int.log 2 y := zpow_le_zpow_right₀ (by norm_num) hlt
        _ ≤ round p y := zpow_log_le_round hp hy
    · have hulp : ulp p x = ulp p y := by
        unfold ulp
        rw [abs_of_pos hx, abs_of_pos hy, heq]
      unfold round
      rw [hulp]
      refine mul_le_mul_of_nonneg_right (Int.cast_le.mpr (roundEven_mono ?_)) (ulp_pos p y).le
      exact div_le_div_of_nonneg_right h (ulp_pos p y).le

/-- A number whose significand fits is not rounded. -/
theorem round_natCast_mul_zpow {m : ℕ} (hm : m < 2 ^ p) (e : ℤ) :
    round p (m * 2 ^ e) = m * 2 ^ e := by
  rcases Nat.eq_zero_or_pos m with rfl | hpos
  · simp
  · have hx : (0 : ℚ) < m * 2 ^ e := mul_pos (Nat.cast_pos.mpr hpos) (zpow_pos (by norm_num) _)
    have hdigits : Nat.log 2 m < p := Nat.log_lt_of_lt_pow hpos.ne' hm
    have hlog : Int.log 2 ((m : ℚ) * 2 ^ e) = Nat.log 2 m + e := by
      refine le_antisymm (Int.lt_add_one_iff.mp ?_) ?_
      · refine (Int.lt_zpow_iff_log_lt (by norm_num) hx).mp ?_
        rw [show (Nat.log 2 m : ℤ) + e + 1 = ((Nat.log 2 m + 1 : ℕ) : ℤ) + e by push_cast; ring,
          Nat.cast_ofNat, zpow_add₀ (by norm_num), zpow_natCast]
        exact mul_lt_mul_of_pos_right (by exact_mod_cast Nat.lt_pow_succ_log_self (by norm_num) m)
          (zpow_pos (by norm_num) _)
      · refine (Int.zpow_le_iff_le_log (by norm_num) hx).mp ?_
        rw [Nat.cast_ofNat, zpow_add₀ (by norm_num), zpow_natCast]
        exact mul_le_mul_of_nonneg_right
          (by exact_mod_cast Nat.pow_log_le_self 2 hpos.ne') (zpow_pos (by norm_num) _).le
    -- the significand, shifted up to `p` bits, is an integer
    have hscaled : (m : ℚ) * 2 ^ e =
        ((m * 2 ^ (p - 1 - Nat.log 2 m) : ℕ) : ℤ) * ulp p (m * 2 ^ e) := by
      unfold ulp
      rw [abs_of_pos hx, hlog, Int.cast_natCast, Nat.cast_mul, Nat.cast_pow, Nat.cast_ofNat, mul_assoc,
        ← zpow_natCast, ← zpow_add₀ (by norm_num)]
      congr 2
      omega
    unfold round
    rw [show (m : ℚ) * 2 ^ e / ulp p (m * 2 ^ e) =
      (((m * 2 ^ (p - 1 - Nat.log 2 m) : ℕ) : ℤ) : ℚ) from
        (div_eq_iff (ulp_pos p _).ne').mpr hscaled, roundEven_intCast]
    exact hscaled.symm

end Round

/-! ### Natural numbers -/

section Nat

variable {p : ℕ}

/-- The integer nearest to a quotient, the even one of two. -/
def divEven (n g : ℕ) : ℕ :=
  if 2 * (n % g) < g then n / g
  else if g < 2 * (n % g) then n / g + 1
  else n / g + n / g % 2

theorem divEven_le (n g : ℕ) : divEven n g ≤ n / g + 1 := by
  unfold divEven
  split
  · omega
  · split <;> omega

theorem roundEven_div (n : ℕ) {g : ℕ} (hg : 0 < g) : roundEven ((n : ℚ) / g) = divEven n g := by
  have hpos : (0 : ℚ) < g := Nat.cast_pos.mpr hg
  have hfloor : ⌊(n : ℚ) / g⌋ = ((n / g : ℕ) : ℤ) := Rat.floor_natCast_div_natCast n g
  have hrest : (n : ℚ) / g - (((n / g : ℕ) : ℤ) : ℚ) = ((n % g : ℕ) : ℚ) / g := by
    have hsplit : (n : ℚ) = g * (n / g : ℕ) + (n % g : ℕ) := by exact_mod_cast (Nat.div_add_mod n g).symm
    rw [Int.cast_natCast, eq_div_iff hpos.ne', sub_mul, div_mul_cancel₀ _ hpos.ne']
    linarith
  have hless : ((n % g : ℕ) : ℚ) / g < 1 / 2 ↔ 2 * (n % g) < g := by
    rw [div_lt_div_iff₀ hpos two_pos, one_mul, mul_comm]
    exact_mod_cast Iff.rfl
  have hgreater : 1 / 2 < ((n % g : ℕ) : ℚ) / g ↔ g < 2 * (n % g) := by
    rw [div_lt_div_iff₀ two_pos hpos, one_mul, mul_comm]
    exact_mod_cast Iff.rfl
  unfold roundEven divEven
  simp only [hfloor, hrest, hless, hgreater]
  split
  · rfl
  · split
    · rfl
    · push_cast
      rfl

/-- The distance of the numbers with a significand of `p` bits at `n`, where it is no fraction. -/
def spacing (p n : ℕ) : ℕ := 2 ^ (Nat.log2 n - (p - 1))

theorem spacing_pos (p n : ℕ) : 0 < spacing p n := Nat.two_pow_pos _

theorem div_spacing_lt (hp : 1 ≤ p) (n : ℕ) : n / spacing p n < 2 ^ p := by
  rw [Nat.div_lt_iff_lt_mul (spacing_pos p n)]
  unfold spacing
  rw [← Nat.pow_add]
  exact Nat.lt_log2_self.trans_le (Nat.pow_le_pow_right (by decide) (by omega))

theorem spacing_of_lt (hp : 1 ≤ p) {n : ℕ} (hn : n < 2 ^ p) : spacing p n = 1 := by
  have hlog : Nat.log2 n ≤ p - 1 := by
    rcases Nat.eq_zero_or_pos n with rfl | hpos
    · exact Nat.zero_le _
    · have := (Nat.log2_lt hpos.ne').mpr hn
      omega
  unfold spacing
  rw [Nat.sub_eq_zero_of_le hlog, Nat.pow_zero]

/-- A number between two of that distance becomes the nearest, and any other stays. -/
theorem round_natCast (hp : 1 ≤ p) (n : ℕ) :
    round p n = ((divEven n (spacing p n) * spacing p n : ℕ) : ℚ) := by
  rcases Nat.lt_or_ge n (2 ^ p) with hlt | hge
  · have hstays := round_natCast_mul_zpow hlt 0
    have heven : divEven n 1 = n := by
      unfold divEven
      rw [Nat.mod_one, Nat.mul_zero, if_pos Nat.one_pos, Nat.div_one]
    rw [spacing_of_lt hp hlt, heven, Nat.mul_one]
    rwa [zpow_zero, mul_one] at hstays
  · have hpos : 0 < n := (Nat.two_pow_pos p).trans_le hge
    have hlog : p ≤ Nat.log2 n := (Nat.le_log2 hpos.ne').mpr hge
    have hulp : ulp p n = (spacing p n : ℚ) := by
      unfold ulp spacing
      rw [Nat.abs_cast, Int.log_natCast, ← Nat.log2_eq_log_two, Nat.cast_pow, Nat.cast_ofNat,
        ← zpow_natCast]
      congr 1
      omega
    unfold round
    rw [hulp, roundEven_div n (spacing_pos p n)]
    push_cast
    rfl

/-- What a natural number becomes has a significand of `p` bits. -/
theorem round_divEven_mul_zpow (hp : 1 ≤ p) (n : ℕ) (e : ℤ) :
    round p ((divEven n (spacing p n) * spacing p n : ℕ) * 2 ^ e) =
      (divEven n (spacing p n) * spacing p n : ℕ) * 2 ^ e := by
  have hle : divEven n (spacing p n) ≤ 2 ^ p :=
    (divEven_le _ _).trans (div_spacing_lt hp n)
  have hspacing : (spacing p n : ℚ) = 2 ^ ((Nat.log2 n - (p - 1) : ℕ) : ℤ) := by
    unfold spacing
    rw [Nat.cast_pow, Nat.cast_ofNat, zpow_natCast]
  rw [Nat.cast_mul, hspacing, mul_assoc, ← zpow_add₀ two_ne_zero]
  rcases hle.lt_or_eq with hlt | heq
  · exact round_natCast_mul_zpow hlt _
  · -- the significand has been carried to the next power of two
    have hcarry := round_natCast_mul_zpow (p := p) (m := 1) (Nat.one_lt_two_pow (by omega))
      ((p : ℤ) + (((Nat.log2 n - (p - 1) : ℕ) : ℤ) + e))
    rw [heq, Nat.cast_pow, Nat.cast_ofNat, ← zpow_natCast, ← zpow_add₀ two_ne_zero]
    rwa [Nat.cast_one, one_mul] at hcarry

/-- What a natural number becomes. -/
def roundNat (p n : ℕ) : ℕ := divEven n (spacing p n) * spacing p n

/-- It is not rounded again. -/
theorem round_roundNat (hp : 1 ≤ p) (n : ℕ) : round p (roundNat p n) = roundNat p n := by
  have h := round_divEven_mul_zpow hp n 0
  rwa [zpow_zero, mul_one] at h

end Nat

/-! ### `float` -/

section Float

variable {x y : ℚ}

@[simp] theorem float_zero : float 0 = 0 := by
  have h : roundEven 0 = 0 := roundEven_intCast 0
  simp [float, h]

/-- The least normal number stays. -/
theorem single_zpow_min : single (2 ^ (-126 : ℤ)) = 2 ^ (-126 : ℤ) := by
  have h := round_natCast_mul_zpow (p := 24) (m := 1) (by decide) (-126)
  rwa [Nat.cast_one, one_mul] at h

/-- A subnormal number is rounded to no more than the least normal one. -/
theorem roundEven_mul_le (hx : x ≤ 2 ^ (-126 : ℤ)) :
    (roundEven (x / 2 ^ (-149 : ℤ)) : ℚ) * 2 ^ (-149 : ℤ) ≤ 2 ^ (-126 : ℤ) := by
  have hpos : (0 : ℚ) < 2 ^ (-149 : ℤ) := zpow_pos two_pos _
  have hsplit : (2 : ℚ) ^ (-126 : ℤ) = ((2 ^ 23 : ℤ) : ℚ) * 2 ^ (-149 : ℤ) := by norm_num
  rw [hsplit]
  refine mul_le_mul_of_nonneg_right (Int.cast_le.mpr (roundEven_le ?_)) hpos.le
  rw [div_le_iff₀ hpos, ← hsplit]
  exact hx

/-- **Rounding to `float` keeps the order** of numbers that are not negative. -/
theorem float_mono (hx : 0 ≤ x) (h : x ≤ y) : float x ≤ float y := by
  have hpos : (0 : ℚ) < 2 ^ (-149 : ℤ) := zpow_pos two_pos _
  unfold float
  rw [abs_of_nonneg hx, abs_of_nonneg (hx.trans h)]
  by_cases hy : y < 2 ^ (-126 : ℤ)
  · rw [if_pos hy, if_pos (h.trans_lt hy)]
    refine mul_le_mul_of_nonneg_right (Int.cast_le.mpr (roundEven_mono ?_)) hpos.le
    exact div_le_div_of_nonneg_right h hpos.le
  · rw [if_neg hy]
    by_cases hx' : x < 2 ^ (-126 : ℤ)
    · rw [if_pos hx']
      calc _ ≤ (2 : ℚ) ^ (-126 : ℤ) := roundEven_mul_le hx'.le
        _ = single (2 ^ (-126 : ℤ)) := single_zpow_min.symm
        _ ≤ single y := round_mono (by decide) (zpow_pos two_pos _).le (not_lt.mp hy)
    · rw [if_neg hx']
      exact round_mono (by decide) hx h

theorem float_nonneg (hx : 0 ≤ x) : 0 ≤ float x := by
  have h := float_mono le_rfl hx
  rwa [float_zero] at h

/-- A natural number is no subnormal one. -/
theorem float_natCast_eq_single (n : ℕ) : float n = single n := by
  rcases Nat.eq_zero_or_pos n with rfl | hpos
  · rw [Nat.cast_zero, float_zero, single, round_zero]
  · unfold float
    rw [if_neg]
    rw [Nat.abs_cast, not_lt]
    calc (2 : ℚ) ^ (-126 : ℤ) ≤ 1 := by norm_num
      _ ≤ n := by exact_mod_cast hpos

theorem float_natCast (n : ℕ) : float n = roundNat 24 n := by
  rw [float_natCast_eq_single, single, round_natCast (by decide)]
  rfl

theorem float_roundNat (n : ℕ) : float (roundNat 24 n) = roundNat 24 n := by
  rw [float_natCast_eq_single, single, round_roundNat (by decide)]

end Float

/-! ### Square roots -/

section Sqrt

variable {p : ℕ} {x : ℚ}

theorem sqrtUlp_pos (p : ℕ) (x : ℚ) : 0 < sqrtUlp p x := zpow_pos (by norm_num) _

theorem sqrt_nonneg (p : ℕ) (x : ℚ) : 0 ≤ sqrt p x :=
  mul_nonneg (Nat.cast_nonneg _) (sqrtUlp_pos p x).le

/-- No integer whose square is at most `x` is above the nearest to the square root. -/
theorem le_sqrtEven {k : ℕ} (h : (k : ℚ) ^ 2 ≤ x) : k ≤ sqrtEven x := by
  have hk : k ≤ Nat.sqrt ⌊x⌋₊ := by
    refine Nat.le_sqrt'.mpr (Nat.le_floor ?_)
    exact_mod_cast h
  unfold sqrtEven
  simp only
  split
  · exact hk
  · split <;> omega

/-- And none whose square is at least `x` is below it. -/
theorem sqrtEven_le {k : ℕ} (hx : 0 ≤ x) (h : x ≤ (k : ℚ) ^ 2) : sqrtEven x ≤ k := by
  have hfloor : ((Nat.sqrt ⌊x⌋₊ : ℚ)) ^ 2 ≤ x := by
    refine le_trans ?_ (Nat.floor_le hx)
    exact_mod_cast Nat.sqrt_le' ⌊x⌋₊
  have hr : Nat.sqrt ⌊x⌋₊ ≤ k := by
    have hle : (Nat.sqrt ⌊x⌋₊ : ℚ) ^ 2 ≤ (k : ℚ) ^ 2 := hfloor.trans h
    exact_mod_cast (pow_le_pow_iff_left₀ (Nat.cast_nonneg _) (Nat.cast_nonneg _) two_ne_zero).mp hle
  rcases hr.lt_or_eq with hlt | heq
  · unfold sqrtEven
    simp only
    split
    · omega
    · split <;> omega
  · -- then `x` is the square of `k`
    unfold sqrtEven
    simp only [heq]
    rw [if_pos]
    have hk : (0 : ℚ) ≤ k := Nat.cast_nonneg k
    nlinarith

/-- The power of two the significand of a square root starts at. -/
theorem zpow_sq_le (hx : 0 < x) : ((2 : ℚ) ^ (Int.log 2 x / 2)) ^ 2 ≤ x := by
  refine le_trans ?_ (Int.zpow_log_le_self (by norm_num) hx (b := 2))
  rw [← zpow_natCast, ← zpow_mul, Nat.cast_ofNat]
  exact zpow_le_zpow_right₀ (by norm_num) (by omega)

/-- A number of at least as high a last bit is a multiple of the last bit of the root. -/
theorem exists_mul_sqrtUlp (m : ℕ) {e : ℤ} (he : Int.log 2 x / 2 - (p - 1 : ℤ) ≤ e) :
    ∃ k : ℕ, (m : ℚ) * 2 ^ e = k * sqrtUlp p x := by
  refine ⟨m * 2 ^ (e - (Int.log 2 x / 2 - (p - 1 : ℤ))).toNat, ?_⟩
  unfold sqrtUlp
  rw [Nat.cast_mul, Nat.cast_pow, Nat.cast_ofNat, mul_assoc, ← zpow_natCast, ← zpow_add₀ (by norm_num)]
  congr 2
  omega

/-- The others are below the power of two the root starts at. -/
theorem lt_zpow_log_sqrt {m : ℕ} (hm : m < 2 ^ p) {e : ℤ}
    (he : e < Int.log 2 x / 2 - (p - 1 : ℤ)) : (m : ℚ) * 2 ^ e < 2 ^ (Int.log 2 x / 2) := by
  have hm' : (m : ℚ) < 2 ^ p := by exact_mod_cast hm
  calc (m : ℚ) * 2 ^ e < 2 ^ p * 2 ^ e := mul_lt_mul_of_pos_right hm' (zpow_pos (by norm_num) _)
    _ = (2 : ℚ) ^ ((p : ℤ) + e) := by rw [zpow_add₀ (by norm_num), zpow_natCast]
    _ ≤ 2 ^ (Int.log 2 x / 2) := zpow_le_zpow_right₀ (by norm_num) (by omega)

theorem mul_sqrtUlp_le_sqrt {k : ℕ} (h : (k * sqrtUlp p x) ^ 2 ≤ x) : k * sqrtUlp p x ≤ sqrt p x := by
  refine mul_le_mul_of_nonneg_right (Nat.cast_le.mpr (le_sqrtEven ?_)) (sqrtUlp_pos p x).le
  rw [le_div_iff₀ (pow_pos (sqrtUlp_pos p x) 2), ← mul_pow]
  exact h

theorem sqrt_le_mul_sqrtUlp {k : ℕ} (hx : 0 ≤ x) (h : x ≤ (k * sqrtUlp p x) ^ 2) :
    sqrt p x ≤ k * sqrtUlp p x := by
  have hpos := pow_pos (sqrtUlp_pos p x) 2
  refine mul_le_mul_of_nonneg_right (Nat.cast_le.mpr (sqrtEven_le ?_ ?_)) (sqrtUlp_pos p x).le
  · exact div_nonneg hx hpos.le
  · rw [div_le_iff₀ hpos, ← mul_pow]
    exact h

/-- **The root is no less than a number of `p` bits** whose square is at most `x`. -/
theorem le_sqrt (hp : 1 ≤ p) {m : ℕ} (hm : m < 2 ^ p) {e : ℤ} (h : ((m : ℚ) * 2 ^ e) ^ 2 ≤ x) :
    (m : ℚ) * 2 ^ e ≤ sqrt p x := by
  rcases (le_trans (sq_nonneg _) h).eq_or_lt with rfl | hx
  · have hzero : (m : ℚ) * 2 ^ e = 0 := pow_eq_zero_iff two_ne_zero |>.mp (le_antisymm h (sq_nonneg _))
    rw [hzero]
    exact sqrt_nonneg p 0
  by_cases he : Int.log 2 x / 2 - (p - 1 : ℤ) ≤ e
  · obtain ⟨k, hk⟩ := exists_mul_sqrtUlp m he
    rw [hk] at h ⊢
    exact mul_sqrtUlp_le_sqrt h
  · have hstart : (2 : ℚ) ^ (Int.log 2 x / 2) = ((2 ^ (p - 1) : ℕ) : ℚ) * sqrtUlp p x := by
      unfold sqrtUlp
      rw [Nat.cast_pow, Nat.cast_ofNat, ← zpow_natCast, ← zpow_add₀ (by norm_num)]
      congr 1
      omega
    refine (lt_zpow_log_sqrt hm (Int.not_le.mp he)).le.trans ?_
    rw [hstart]
    exact mul_sqrtUlp_le_sqrt (hstart ▸ zpow_sq_le hx)

/-- **And no more than one** whose square is at least `x`. -/
theorem sqrt_le {m : ℕ} (hm : m < 2 ^ p) {e : ℤ} (hx : 0 ≤ x) (h : x ≤ ((m : ℚ) * 2 ^ e) ^ 2) :
    sqrt p x ≤ (m : ℚ) * 2 ^ e := by
  rcases hx.eq_or_lt with rfl | hpos
  · refine le_trans (sqrt_le_mul_sqrtUlp (k := 0) le_rfl (sq_nonneg _)) ?_
    rw [Nat.cast_zero, zero_mul]
    exact mul_nonneg (Nat.cast_nonneg m) (zpow_nonneg (by norm_num) _)
  by_cases he : Int.log 2 x / 2 - (p - 1 : ℤ) ≤ e
  · obtain ⟨k, hk⟩ := exists_mul_sqrtUlp m he
    rw [hk] at h ⊢
    exact sqrt_le_mul_sqrtUlp hx h
  · have hlt := lt_zpow_log_sqrt hm (Int.not_le.mp he)
    have hsq := pow_lt_pow_left₀ hlt
      (mul_nonneg (Nat.cast_nonneg m) (zpow_nonneg (by norm_num) _)) two_ne_zero
    exact absurd (hsq.trans_le (zpow_sq_le hpos)) (not_lt.mpr h)

end Sqrt

end Ieee
