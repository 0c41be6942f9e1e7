/-
A command is undone.

A push or a pull carries one number for its request type and its data type.  The worker makes it
with `GetCommandType`, which numbers the pairs one diagonal after another, and the server takes
it apart with `DepairDataHandleType`, which has to find the diagonal a number is on.

The numbers of a diagonal are those from one triangular number up to the next, and eight times
such a number plus one lies between the squares of two odd numbers that follow each other.  Its
root is therefore below the greater of them by more than `double` rounds away, so the floor is
the diagonal.

That is all there is to the arithmetic in `double`.  The rest is in `int`, and the two functions
are inverse to each other wherever none of it overflows.
-/
import DeepInc.Common.Command
import DeepInc.Lib.Outcome
import Mathlib.Tactic.NormNum

namespace DeepInc

open Outcome

/-! ### Triangular numbers

A diagonal `w` starts at the number `triangle w`, which is `w * (w + 1) / 2`.  The root
`DepairDataHandleType` takes is of `8 * n + 1`, and that is `(2 * w + 1) ^ 2` at the start of
the diagonal.
-/

/-- Where a diagonal starts. -/
def triangle (w : ℕ) : ℕ := w * (w + 1) / 2

theorem two_mul_triangle (w : ℕ) : 2 * triangle w = w * (w + 1) :=
  Nat.mul_div_cancel' (Nat.even_mul_succ_self w).two_dvd

theorem triangle_succ (w : ℕ) : triangle (w + 1) = triangle w + (w + 1) := by
  have h := two_mul_triangle w
  have h' := two_mul_triangle (w + 1)
  nlinarith

/-- Every number is on a diagonal. -/
theorem exists_triangle (n : ℕ) : ∃ w y, y ≤ w ∧ n = triangle w + y := by
  induction n with
  | zero => exact ⟨0, 0, Nat.le_refl _, rfl⟩
  | succ n ih =>
      obtain ⟨w, y, hy, rfl⟩ := ih
      rcases hy.lt_or_eq with hlt | rfl
      · exact ⟨w, y + 1, hlt, rfl⟩
      · exact ⟨y + 1, 0, Nat.zero_le _, (triangle_succ y).symm⟩

/-- Between the squares of two odd numbers. -/
theorem radicand_bounds {w y : ℕ} (hy : y ≤ w) :
    (2 * w + 1) ^ 2 ≤ 8 * (triangle w + y) + 1 ∧
      8 * (triangle w + y) + 1 + 8 ≤ (2 * w + 3) ^ 2 := by
  have h := two_mul_triangle w
  constructor <;> nlinarith

/-! ### The root

The square root is rounded, and what is computed from it is rounded again.  None of this goes
past a number of `double` that the exact value is below, and the half integers in question are
such numbers.
-/

/-- A number between two of `double` is rounded to one between them. -/
theorem double_between {m n : ℕ} {e : ℤ} {x : ℚ} (hm : m < 2 ^ 53) (hn : n < 2 ^ 53)
    (hle : (m : ℚ) * 2 ^ e ≤ x) (hge : x ≤ n * 2 ^ e) :
    (m : ℚ) * 2 ^ e ≤ Ieee.double x ∧ Ieee.double x ≤ n * 2 ^ e := by
  have hpos : (0 : ℚ) ≤ m * 2 ^ e := mul_nonneg (Nat.cast_nonneg m) (zpow_nonneg (by norm_num) _)
  constructor
  · rw [← Ieee.round_natCast_mul_zpow hm e]
    exact Ieee.round_mono (by norm_num) hpos hle
  · rw [← Ieee.round_natCast_mul_zpow hn e]
    exact Ieee.round_mono (by norm_num) (hpos.trans hle) hge

/-- **The diagonal is found**, for roots up to `2 ^ 16`. -/
theorem diagonalOf_eq {w : ℕ} {radicand : ℤ} (hw : 2 * w + 3 ≤ 2 ^ 16)
    (hle : ((2 * w + 1) ^ 2 : ℤ) ≤ radicand) (hge : radicand + 8 ≤ ((2 * w + 3) ^ 2 : ℤ)) :
    diagonalOf radicand = w := by
  have h₁₄ : (2 : ℚ) ^ (-14 : ℤ) = 1 / 16384 := by norm_num
  have h₁₅ : (2 : ℚ) ^ (-15 : ℤ) = 1 / 32768 := by norm_num
  have hleQ : ((2 * w + 1) ^ 2 : ℚ) ≤ radicand := by exact_mod_cast hle
  have hgeQ : (radicand : ℚ) + 8 ≤ (2 * w + 3) ^ 2 := by exact_mod_cast hge
  have hwQ : (2 * w + 3 : ℚ) ≤ 2 ^ 16 := by exact_mod_cast hw
  have hpos : (0 : ℚ) ≤ radicand := le_trans (sq_nonneg _) hleQ
  -- the root is a whole step of `2 ^ -14` below the next odd number
  have hroot : (((2 * w + 1) * 16384 : ℕ) : ℚ) * 2 ^ (-14 : ℤ) ≤ Ieee.sqrt 53 radicand := by
    refine Ieee.le_sqrt (by norm_num) (by omega) ?_
    rw [h₁₄]
    push_cast
    nlinarith
  have hroot' : Ieee.sqrt 53 radicand ≤ (((2 * w + 2) * 16384 + 16383 : ℕ) : ℚ) * 2 ^ (-14 : ℤ) := by
    refine Ieee.sqrt_le (by omega) hpos ?_
    rw [h₁₄]
    push_cast
    nlinarith
  rw [h₁₄] at hroot hroot'
  push_cast at hroot hroot'
  obtain ⟨hless, hless'⟩ := double_between (m := 2 * w * 16384) (n := (2 * w + 1) * 16384 + 16383)
    (e := -14) (x := Ieee.sqrt 53 radicand - 1) (by omega) (by omega)
    (by rw [h₁₄]; push_cast; linarith) (by rw [h₁₄]; push_cast; linarith)
  rw [h₁₄] at hless hless'
  push_cast at hless hless'
  obtain ⟨hhalf, hhalf'⟩ := double_between (m := 2 * w * 16384) (n := (2 * w + 1) * 16384 + 16383)
    (e := -15) (x := Ieee.double (Ieee.sqrt 53 radicand - 1) / 2) (by omega) (by omega)
    (by rw [h₁₅]; push_cast; linarith) (by rw [h₁₅]; push_cast; linarith)
  rw [h₁₅] at hhalf hhalf'
  push_cast at hhalf hhalf'
  unfold diagonalOf
  rw [Int.floor_eq_iff]
  push_cast
  constructor <;> linarith

/-! ### Both functions -/

theorem checkInt_eq {n : ℤ} (h : -2 ^ 31 ≤ n) (h' : n < 2 ^ 31) : checkInt n = .ok n :=
  if_pos ⟨h, h'⟩

theorem checkInt_eq_ok {n k : ℤ} (h : checkInt n = .ok k) : k = n ∧ -2 ^ 31 ≤ n ∧ n < 2 ^ 31 := by
  unfold checkInt at h
  split at h
  · rename_i hbounds
    exact ⟨(Except.ok.inj h).symm, hbounds⟩
  · cases h

/-- The command of a pair is its number on the diagonals. -/
theorem getCommandType_spec {m d : ℕ} {cmd : ℤ} (h : getCommandType m d = .ok cmd) :
    cmd = (triangle (m + d) + d : ℕ) := by
  obtain ⟨sum, hsum, h⟩ := bind_eq_ok h
  obtain ⟨next, hnext, h⟩ := bind_eq_ok h
  obtain ⟨product, hproduct, h⟩ := bind_eq_ok h
  obtain ⟨rfl, _⟩ := checkInt_eq_ok hsum
  obtain ⟨rfl, _⟩ := checkInt_eq_ok hnext
  obtain ⟨rfl, _⟩ := checkInt_eq_ok hproduct
  obtain ⟨rfl, _⟩ := checkInt_eq_ok h
  have htri : ((m : ℤ) + d) * ((m : ℤ) + d + 1) = 2 * (triangle (m + d) : ℕ) := by
    exact_mod_cast (two_mul_triangle (m + d)).symm
  rw [htri, Int.mul_tdiv_cancel_left _ (by norm_num)]
  push_cast
  rfl

theorem getCommandType_eq {m d : ℕ} (h : (m + d) * (m + d + 1) < 2 ^ 31)
    (h' : triangle (m + d) + d < 2 ^ 31) :
    getCommandType m d = .ok (triangle (m + d) + d : ℕ) := by
  have htri : ((m : ℤ) + d) * ((m : ℤ) + d + 1) = 2 * (triangle (m + d) : ℕ) := by
    exact_mod_cast (two_mul_triangle (m + d)).symm
  have hsum : m + d + 1 < 2 ^ 31 := by
    rcases Nat.eq_zero_or_pos (m + d) with hzero | hpos
    · omega
    · exact Nat.lt_of_le_of_lt (Nat.le_mul_of_pos_left _ hpos) h
  have hdouble : 2 * triangle (m + d) < 2 ^ 31 := by rw [two_mul_triangle]; exact h
  have h₁ : checkInt ((m : ℤ) + d) = .ok ((m : ℤ) + d) := checkInt_eq (by omega) (by omega)
  have h₂ : checkInt ((m : ℤ) + d + 1) = .ok ((m : ℤ) + d + 1) := checkInt_eq (by omega) (by omega)
  have h₃ : checkInt (((m : ℤ) + d) * ((m : ℤ) + d + 1)) = .ok (2 * (triangle (m + d) : ℕ)) := by
    rw [htri]
    exact checkInt_eq (by omega) (by omega)
  have h₄ : checkInt ((2 * (triangle (m + d) : ℕ) : ℤ).tdiv 2 + d) =
      .ok (triangle (m + d) + d : ℕ) := by
    rw [Int.mul_tdiv_cancel_left _ two_ne_zero, ← Nat.cast_add]
    exact checkInt_eq (by omega) (by omega)
  unfold getCommandType
  dsimp only
  rw [h₁, ok_bind, h₂, ok_bind, h₃, ok_bind, h₄]

/-- A number is taken apart into its place on its diagonal. -/
theorem depairDataHandleType_eq {w y : ℕ} (hy : y ≤ w)
    (h : 8 * (triangle w + y) + 1 < 2 ^ 31) :
    depairDataHandleType (triangle w + y : ℕ) = .ok ((w - y : ℕ), (y : ℤ)) := by
  obtain ⟨hle, hge⟩ := radicand_bounds hy
  have hw : 2 * w + 3 ≤ 2 ^ 16 := by
    by_contra hlt
    have := Nat.pow_le_pow_left (show 2 ^ 16 - 1 ≤ 2 * w + 1 by omega) 2
    omega
  have htri := two_mul_triangle w
  have hsquare : (w : ℤ) * w + w = 2 * (triangle w : ℕ) := by
    exact_mod_cast (htri.trans (Nat.mul_succ w w)).symm
  have hdouble : w * w + w < 2 ^ 31 := by
    rw [← Nat.mul_succ, ← htri]
    omega
  have hdiag : diagonalOf (8 * (triangle w + y : ℕ) + 1) = w :=
    diagonalOf_eq hw (by exact_mod_cast hle) (by exact_mod_cast hge)
  have h₁ : checkInt (8 * (triangle w + y : ℕ)) = .ok (8 * (triangle w + y : ℕ)) :=
    checkInt_eq (by omega) (by omega)
  have h₂ : checkInt (8 * (triangle w + y : ℕ) + 1) = .ok (8 * (triangle w + y : ℕ) + 1) :=
    checkInt_eq (by omega) (by omega)
  have h₃ : checkInt (w : ℤ) = .ok (w : ℤ) := checkInt_eq (by omega) (by omega)
  have h₄ : checkInt ((w : ℤ) * w) = .ok ((w : ℤ) * w) := by
    have hlt : ((w : ℤ) * w) < 2 ^ 31 := by exact_mod_cast (Nat.le_add_right _ w).trans_lt hdouble
    exact checkInt_eq (by nlinarith) hlt
  have h₅ : checkInt ((w : ℤ) * w + w) = .ok (2 * (triangle w : ℕ)) := by
    rw [hsquare]
    exact checkInt_eq (by omega) (by omega)
  have h₆ : checkInt (((triangle w + y : ℕ) : ℤ) - (2 * (triangle w : ℕ) : ℤ).tdiv 2) =
      .ok (y : ℤ) := by
    rw [Int.mul_tdiv_cancel_left _ two_ne_zero, Nat.cast_add, add_sub_cancel_left]
    exact checkInt_eq (by omega) (by omega)
  have h₇ : checkInt ((w : ℤ) - y) = .ok ((w - y : ℕ) : ℤ) := by
    rw [← Nat.cast_sub hy]
    exact checkInt_eq (by omega) (by omega)
  have hneg : ¬(8 * ((triangle w + y : ℕ) : ℤ) + 1 < 0) := by omega
  unfold depairDataHandleType
  rw [h₁, ok_bind, h₂, ok_bind, if_neg hneg, hdiag, h₃, ok_bind, h₄, ok_bind, h₅, ok_bind]
  dsimp only
  rw [h₆, ok_bind, h₇, ok_bind]
  exact if_pos ⟨Int.natCast_nonneg _, Int.natCast_nonneg _⟩

/-- A number whose eightfold does not fit has no diagonal. -/
theorem lt_of_no_overflow {n : ℕ} (h : depairDataHandleType n ≠ .error .overflow) :
    8 * n + 1 < 2 ^ 31 := by
  by_contra hlt
  refine h ?_
  unfold depairDataHandleType
  by_cases height : 8 * (n : ℤ) < 2 ^ 31
  · rw [checkInt_eq (by omega) height, ok_bind]
    unfold checkInt
    rw [if_neg (by omega)]
    rfl
  · unfold checkInt
    rw [if_neg (by omega)]
    rfl

/-- The command of a pair is taken apart into the pair. -/
theorem depairDataHandleType_getCommandType {m d : ℕ} (h : 8 * (triangle (m + d) + d) + 1 < 2 ^ 31) :
    depairDataHandleType (triangle (m + d) + d : ℕ) = .ok ((m : ℤ), (d : ℤ)) := by
  rw [depairDataHandleType_eq (Nat.le_add_left d m) h, Nat.add_sub_cancel]

/-- Every message has the request type and the data type it was sent with. -/
theorem command_carries_types (requestType : RequestType) (dtype : DataType) :
    ∃ cmd, getCommandType requestType.value dtype.value = .ok cmd ∧
      depairDataHandleType cmd = .ok (requestType.value, dtype.value) := by
  obtain ⟨m, hm, hm'⟩ : ∃ m : ℕ, requestType.value = m ∧ m ≤ 2 := by
    cases requestType
    · exact ⟨0, rfl, by decide⟩
    · exact ⟨1, rfl, by decide⟩
    · exact ⟨2, rfl, by decide⟩
  obtain ⟨d, hd, hd'⟩ : ∃ d : ℕ, dtype.value = d ∧ d ≤ 6 := by
    cases dtype
    · exact ⟨0, rfl, by decide⟩
    · exact ⟨1, rfl, by decide⟩
    · exact ⟨2, rfl, by decide⟩
    · exact ⟨3, rfl, by decide⟩
    · exact ⟨4, rfl, by decide⟩
    · exact ⟨5, rfl, by decide⟩
    · exact ⟨6, rfl, by decide⟩
  have hproduct : (m + d) * (m + d + 1) ≤ 8 * 9 :=
    Nat.mul_le_mul (by omega) (by omega)
  have htri := two_mul_triangle (m + d)
  rw [hm, hd]
  exact ⟨_, getCommandType_eq (by omega) (by omega),
    depairDataHandleType_getCommandType (by omega)⟩

/--
**The two functions are inverse to each other** where their arithmetic does not overflow: a command
is taken apart into what it was made of, and the parts of a number make the number again.
-/
theorem command_roundTrip :
    (∀ m d cmd : ℤ, 0 ≤ m → 0 ≤ d → getCommandType m d = .ok cmd →
      depairDataHandleType cmd ≠ .error .overflow → depairDataHandleType cmd = .ok (m, d)) ∧
    (∀ cmd : ℤ, 0 ≤ cmd → 8 * cmd + 1 < 2 ^ 31 → ∃ x y, depairDataHandleType cmd = .ok (x, y) ∧
      0 ≤ x ∧ 0 ≤ y ∧ getCommandType x y = .ok cmd) := by
  constructor
  · intro m d cmd hm hd hcmd hover
    obtain ⟨m, rfl⟩ := Int.eq_ofNat_of_zero_le hm
    obtain ⟨d, rfl⟩ := Int.eq_ofNat_of_zero_le hd
    obtain rfl := getCommandType_spec hcmd
    exact depairDataHandleType_getCommandType (lt_of_no_overflow hover)
  · intro cmd hcmd hlt
    obtain ⟨n, rfl⟩ := Int.eq_ofNat_of_zero_le hcmd
    obtain ⟨w, y, hy, rfl⟩ := exists_triangle n
    have hlt' : 8 * (triangle w + y) + 1 < 2 ^ 31 := by omega
    refine ⟨_, _, depairDataHandleType_eq hy hlt', Int.natCast_nonneg _, Int.natCast_nonneg _, ?_⟩
    have hw : w - y + y = w := Nat.sub_add_cancel hy
    have htri := two_mul_triangle w
    have hmake := getCommandType_eq (m := w - y) (d := y) (by rw [hw]; omega) (by rw [hw]; omega)
    rw [hw] at hmake
    exact hmake

/-- The command of the second request type and the fifth data type. -/
theorem command_roundTrip_nineteen : depairDataHandleType 19 = .ok (1, 4) :=
  command_roundTrip.1 1 4 19 (by decide) (by decide) (by decide)
    fun h => by
      have := depairDataHandleType_getCommandType (m := 1) (d := 4) (by decide)
      rw [show ((triangle (1 + 4) + 4 : ℕ) : ℤ) = 19 from rfl] at this
      rw [this] at h
      cases h

end DeepInc
