/-
Binary floating point formats.

A pattern has a sign, an exponent and a fraction.  Without its sign it is a number that grows
with the value it stands for: the next pattern is the next value, and rounding to the nearest
value is choosing between two numbers that follow one another.
-/
import Mathlib.Algebra.Order.Field.Basic
import Mathlib.Algebra.Order.Ring.Abs
import Mathlib.Tactic.Linarith
import Mathlib.Tactic.Ring

namespace Binary

/-! ### Rounding along a growing sequence -/

section Rounding

variable {K : Type} [Field K] [LinearOrder K] {g : ℕ → K} {x c : K} {r n : ℕ}

/-- `g r` is the nearest to `x` of two members that follow one another, or `r` is even. -/
inductive RoundsEven (g : ℕ → K) (x : K) : ℕ → Prop
  | down {u : ℕ} (hle : g u ≤ x) (h : x - g u < g (u + 1) - x) : RoundsEven g x u
  | up {u : ℕ} (hlt : x < g (u + 1)) (h : g (u + 1) - x < x - g u) : RoundsEven g x (u + 1)
  | tie {u r : ℕ} (h : x - g u = g (u + 1) - x) (hr : r = u ∨ r = u + 1) (heven : r % 2 = 0) :
      RoundsEven g x r

variable [IsStrictOrderedRing K]

theorem sub_le_abs (hg : StrictMono g) (x : K) {m n : ℕ} (h : n ≤ m) : x - g m ≤ |x - g n| :=
  (sub_le_sub_left (hg.monotone h) x).trans (le_abs_self _)

theorem le_sub_abs (hg : StrictMono g) (x : K) {m n : ℕ} (h : m ≤ n) : g m - x ≤ |x - g n| :=
  (sub_le_sub_right (hg.monotone h) x).trans (neg_sub x (g n) ▸ neg_le_abs _)

/-- Every other member is further away, or as far and the one that is rounded to is even. -/
theorem RoundsEven.lt_abs_or (hg : StrictMono g) (h : RoundsEven g x r) (hn : n ≠ r) :
    |x - g r| < |x - g n| ∨ |x - g r| ≤ |x - g n| ∧ r % 2 = 0 := by
  cases h with
  | down hle hd =>
      rw [abs_of_nonneg (sub_nonneg.mpr hle)]
      rcases Nat.lt_or_gt_of_ne hn with hlt | hgt
      · exact .inl ((sub_lt_sub_left (hg hlt) x).trans_le (sub_le_abs hg x le_rfl))
      · exact .inl (hd.trans_le (le_sub_abs hg x hgt))
  | @up u hlt hd =>
      rw [abs_sub_comm, abs_of_pos (sub_pos.mpr hlt)]
      rcases Nat.lt_or_gt_of_ne hn with hlt | hgt
      · exact .inl (hd.trans_le (sub_le_abs hg x (Nat.le_of_lt_succ hlt)))
      · exact .inl ((sub_lt_sub_right (hg hgt) x).trans_le (le_sub_abs hg x le_rfl))
  | @tie u _ ht hr heven =>
      have hpos : 0 < x - g u := by
        have := hg (Nat.lt_succ_self u)
        linarith
      have hdist : |x - g r| = x - g u := by
        rcases hr with rfl | rfl
        · exact abs_of_pos hpos
        · rw [abs_sub_comm, ht, abs_of_pos (ht ▸ hpos)]
      rw [hdist]
      refine .inr ⟨?_, heven⟩
      rcases Nat.lt_or_ge u n with hlt | hle
      · exact ht.le.trans (le_sub_abs hg x hlt)
      · exact sub_le_abs hg x hle

/-- What is rounded to a member up to an odd one is below the middle between that and the next. -/
theorem RoundsEven.le_iff (hg : StrictMono g) (h : RoundsEven g x r) (hn : n % 2 = 1) :
    r ≤ n ↔ 2 * x < g n + g (n + 1) := by
  have hmiddle : ∀ {k m : ℕ}, k ≤ m → g k + g (k + 1) ≤ g m + g (m + 1) := fun hkm =>
    add_le_add (hg.monotone hkm) (hg.monotone (Nat.succ_le_succ hkm))
  cases h with
  | down hle hd =>
      constructor
      · intro hrn
        have := hmiddle hrn
        linarith
      · intro hx
        by_contra hnr
        have h₁ := hg.monotone (Nat.le_of_not_le hnr)
        have h₂ := hg.monotone (Nat.lt_of_not_le hnr)
        linarith
  | @up u hlt hd =>
      constructor
      · intro hrn
        have h₁ := hg.monotone hrn
        have h₂ := hg (Nat.lt_succ_self n)
        linarith
      · intro hx
        by_contra hnr
        have := hmiddle (show n ≤ u by omega)
        linarith
  | @tie u _ ht hr heven =>
      constructor
      · intro hrn
        have h₁ := hg (show u < n by omega)
        have h₂ := hg.monotone (show u + 1 ≤ n + 1 by omega)
        linarith
      · intro hx
        by_contra hnr
        have := hmiddle (show n ≤ u by omega)
        linarith

/-- Of two even members there is one in between that is nearer. -/
theorem RoundsEven.not_lt (hg : StrictMono g) (h : RoundsEven g x r) (h' : RoundsEven g x n) :
    ¬r < n := by
  intro hlt
  rcases h.lt_abs_or hg (Nat.ne_of_gt hlt) with hless | ⟨hle, heven⟩
  · rcases h'.lt_abs_or hg (Nat.ne_of_lt hlt) with hless' | ⟨hle', -⟩
    · exact lt_asymm hless hless'
    · exact hless.not_ge hle'
  rcases h'.lt_abs_or hg (Nat.ne_of_lt hlt) with hless' | ⟨hle', heven'⟩
  · exact hle.not_gt hless'
  have hnext : r + 1 < n := by omega
  have hlow := hg (Nat.lt_succ_self r)
  have hhigh := hg hnext
  have hnear : |x - g r| ≤ |x - g (r + 1)| := by
    rcases h.lt_abs_or hg (Nat.succ_ne_self r) with hless | ⟨hle, -⟩
    · exact hless.le
    · exact hle
  rcases abs_eq_abs.mp (le_antisymm hle hle') with heq | heq
  · linarith
  · rw [abs_of_pos (show 0 < x - g r by linarith)] at hnear
    rcases le_abs.mp hnear with hcase | hcase
    · linarith
    · linarith

/-- A number is rounded to one member only. -/
theorem RoundsEven.unique (hg : StrictMono g) (h : RoundsEven g x r) (h' : RoundsEven g x n) :
    r = n :=
  Nat.le_antisymm (Nat.le_of_not_lt (h'.not_lt hg h)) (Nat.le_of_not_lt (h.not_lt hg h'))

/-- A number between two members, all of them multiples of `c`. -/
theorem roundsEven_of_nat {N A B u : ℕ} (hc : 0 < c) (hlo : g u = (A : K) * c)
    (hhi : g (u + 1) = (B : K) * c) (hA : A ≤ N) (hB : N < B) :
    RoundsEven g ((N : K) * c)
      (if 2 * N < A + B then u else if A + B < 2 * N then u + 1 else u + u % 2) := by
  have hmul : ∀ {m n : ℕ}, m < n → (m : K) * c < (n : K) * c := fun h =>
    mul_lt_mul_of_pos_right (Nat.cast_lt.mpr h) hc
  have hdouble : ((2 * N : ℕ) : K) * c = (N : K) * c + (N : K) * c := by
    push_cast
    ring
  have hsum : ((A + B : ℕ) : K) * c = (A : K) * c + (B : K) * c := by
    push_cast
    ring
  split
  · rename_i h
    have hlt := hmul h
    refine .down ?_ (by linarith)
    rw [hlo]
    exact mul_le_mul_of_nonneg_right (Nat.cast_le.mpr hA) hc.le
  · split
    · rename_i h
      have hlt := hmul h
      exact .up (by rw [hhi]; exact hmul hB) (by linarith)
    · have heq : 2 * N = A + B := by omega
      rw [← heq, hdouble] at hsum
      exact .tie (u := u) (by linarith) (by omega) (by omega)

/-- The first bit that is dropped decides, then whether another is set, then the last one kept. -/
theorem roundsEven_of_bits {N k u : ℕ} (hc : 0 < c)
    (hlo : g u = ((N / 2 ^ (k + 1) * 2 ^ (k + 1) : ℕ) : K) * c)
    (hhi : g (u + 1) = (((N / 2 ^ (k + 1) + 1) * 2 ^ (k + 1) : ℕ) : K) * c) :
    RoundsEven g ((N : K) * c)
      (if N / 2 ^ k % 2 = 1 ∧ (N % 2 ^ k ≠ 0 ∨ u % 2 = 1) then u + 1 else u) := by
  have hpos := Nat.two_pow_pos k
  have hlt := Nat.mod_lt N hpos
  have hN := Nat.div_add_mod N (2 ^ k)
  have hbit := Nat.div_add_mod (N / 2 ^ k) 2
  have hhalf : N / 2 ^ (k + 1) * 2 ^ (k + 1) = 2 * (2 ^ k * (N / 2 ^ k / 2)) := by
    rw [pow_succ, Nat.div_div_eq_div_mul]
    ring
  have hnext : (N / 2 ^ (k + 1) + 1) * 2 ^ (k + 1) = 2 * (2 ^ k * (N / 2 ^ k / 2)) + 2 * 2 ^ k := by
    rw [Nat.succ_mul, hhalf, pow_succ, Nat.mul_comm (2 ^ k) 2]
  rw [← hbit, Nat.mul_add, Nat.mul_left_comm] at hN
  rw [hhalf] at hlo
  rw [hnext] at hhi
  rcases Nat.mod_two_eq_zero_or_one (N / 2 ^ k) with h | h
  · rw [h, Nat.mul_zero] at hN
    have hround := roundsEven_of_nat (N := N) hc hlo hhi (by omega) (by omega)
    rw [if_pos (by omega)] at hround
    rwa [if_neg (by omega)]
  · rw [h, Nat.mul_one] at hN
    have hround := roundsEven_of_nat (N := N) hc hlo hhi (by omega) (by omega)
    rw [if_neg (by omega)] at hround
    by_cases hsticky : N % 2 ^ k ≠ 0
    · rw [if_pos (by omega)] at hround
      rwa [if_pos ⟨h, .inl hsticky⟩]
    · rw [if_neg (by omega)] at hround
      rcases Nat.mod_two_eq_zero_or_one u with hu | hu
      · rw [hu] at hround
        rwa [if_neg (by omega)]
      · rw [hu] at hround
        rwa [if_pos ⟨h, .inr hu⟩]

end Rounding

/-! ### Patterns -/

/-- What exponent and fraction `p` stand for, in units of the last bit of a subnormal number. -/
def magnitude (fracBits p : ℕ) : ℕ :=
  if p / 2 ^ fracBits = 0 then p % 2 ^ fracBits
  else (2 ^ fracBits + p % 2 ^ fracBits) * 2 ^ (p / 2 ^ fracBits - 1)

/-- A significand `q` at exponent `e`; below the first exponent there is no leading one. -/
theorem magnitude_add {m e q : ℕ} (hq : q ≤ 2 ^ (m + 1)) (h : e = 0 ∨ 2 ^ m ≤ q) :
    magnitude m (e * 2 ^ m + q) = q * 2 ^ e := by
  have hpos := Nat.two_pow_pos m
  have hnormal : ∀ {e t : ℕ}, t < 2 ^ m →
      magnitude m ((e + 1) * 2 ^ m + t) = (2 ^ m + t) * 2 ^ e := fun {e t} ht => by
    have hdiv : ((e + 1) * 2 ^ m + t) / 2 ^ m = e + 1 := by
      rw [Nat.mul_comm, Nat.mul_add_div hpos, Nat.div_eq_of_lt ht, Nat.add_zero]
    have hmod : ((e + 1) * 2 ^ m + t) % 2 ^ m = t := by
      rw [Nat.mul_comm, Nat.mul_add_mod, Nat.mod_eq_of_lt ht]
    unfold magnitude
    rw [hdiv, hmod, if_neg (Nat.succ_ne_zero e), Nat.add_sub_cancel]
  rcases Nat.lt_or_ge q (2 ^ m) with hlt | hge
  · obtain rfl : e = 0 := by omega
    unfold magnitude
    rw [Nat.zero_mul, Nat.zero_add, Nat.div_eq_of_lt hlt, if_pos rfl, Nat.mod_eq_of_lt hlt,
      pow_zero, Nat.mul_one]
  rcases Nat.lt_or_ge q (2 ^ (m + 1)) with hlt | hge'
  · have := hnormal (e := e) (t := q - 2 ^ m) (by omega)
    rw [Nat.succ_mul, Nat.add_assoc, Nat.add_sub_cancel' hge] at this
    exact this
  · have := hnormal (e := e + 1) (t := 0) hpos
    obtain rfl : q = 2 ^ (m + 1) := Nat.le_antisymm hq hge'
    rw [pow_succ, Nat.mul_two, ← Nat.add_assoc, ← Nat.succ_mul, ← Nat.succ_mul]
    rw [Nat.add_zero, Nat.add_zero] at this
    rw [this, pow_succ]
    ring

/-- Exponent and significand of a pattern. -/
theorem exists_significand (m p : ℕ) :
    ∃ e q, q < 2 ^ (m + 1) ∧ (e = 0 ∨ 2 ^ m ≤ q) ∧ p = e * 2 ^ m + q := by
  have hlt := Nat.mod_lt p (Nat.two_pow_pos m)
  have hp := Nat.div_add_mod p (2 ^ m)
  cases hdiv : p / 2 ^ m with
  | zero =>
      rw [hdiv] at hp
      exact ⟨0, p % 2 ^ m, by omega, .inl rfl, by omega⟩
  | succ e =>
      rw [hdiv, Nat.mul_succ, Nat.mul_comm] at hp
      exact ⟨e, 2 ^ m + p % 2 ^ m, by omega, .inr (Nat.le_add_right _ _), by omega⟩

theorem strictMono_magnitude (m : ℕ) : StrictMono (magnitude m) := by
  refine strictMono_nat_of_lt_succ fun p => ?_
  obtain ⟨e, q, hq, h, rfl⟩ := exists_significand m p
  rw [magnitude_add hq.le h, Nat.add_assoc,
    magnitude_add (Nat.succ_le_of_lt hq) (h.imp_right fun hle => by omega)]
  exact Nat.mul_lt_mul_of_pos_right (Nat.lt_succ_self q) (Nat.two_pow_pos e)

theorem magnitude_zero (m : ℕ) : magnitude m 0 = 0 := by
  simp [magnitude]

/-- The widths of exponent and fraction. -/
structure Format where
  expBits : ℕ
  fracBits : ℕ

namespace Format

/-- `half`. -/
def half : Format := ⟨5, 10⟩

/-- `float`. -/
def single : Format := ⟨8, 23⟩

variable (f : Format)

/-- The bit above exponent and fraction. -/
def signBit (p : ℕ) : ℕ := p / 2 ^ (f.expBits + f.fracBits) % 2

/-- Exponent and fraction. -/
def rest (p : ℕ) : ℕ := p % 2 ^ (f.expBits + f.fracBits)

/-- The highest exponent, with no fraction. -/
def infinity : ℕ := (2 ^ f.expBits - 1) * 2 ^ f.fracBits

def IsFinite (p : ℕ) : Prop := f.rest p < f.infinity

def IsInfinite (p : ℕ) : Prop := f.rest p = f.infinity

def IsNaN (p : ℕ) : Prop := f.infinity < f.rest p

/-- The least positive number. -/
def unit : ℚ := 2 ^ (2 - 2 ^ (f.expBits - 1) - f.fracBits : ℤ)

/-- The number exponent and fraction stand for. -/
def absValue (u : ℕ) : ℚ := magnitude f.fracBits u * f.unit

/-- The number of a sign and an absolute value. -/
def signed (sign : ℕ) (x : ℚ) : ℚ := if sign = 0 then x else -x

/-- The number a finite pattern stands for. -/
def value (p : ℕ) : ℚ := signed (f.signBit p) (f.absValue (f.rest p))

/-- A pattern whose number is nearest to `x`, with an even significand where there are two. -/
structure Nearest (x : ℚ) (p : ℕ) : Prop where
  finite : f.IsFinite p
  le : ∀ n, f.IsFinite n → |x - f.value p| ≤ |x - f.value n|
  even : ∀ n, f.IsFinite n → f.value n ≠ f.value p → |x - f.value p| = |x - f.value n| →
    f.rest p % 2 = 0

theorem signBit_lt (p : ℕ) : f.signBit p < 2 := Nat.mod_lt _ Nat.two_pos

theorem unit_pos : 0 < f.unit := zpow_pos (by norm_num) _

theorem strictMono_absValue : StrictMono f.absValue := fun _ _ h =>
  mul_lt_mul_of_pos_right (Nat.cast_lt.mpr (strictMono_magnitude f.fracBits h)) f.unit_pos

theorem absValue_zero : f.absValue 0 = 0 := by
  rw [absValue, magnitude_zero, Nat.cast_zero, zero_mul]

theorem absValue_nonneg (u : ℕ) : 0 ≤ f.absValue u :=
  mul_nonneg (Nat.cast_nonneg _) f.unit_pos.le

theorem abs_signed (sign : ℕ) {x : ℚ} (hx : 0 ≤ x) : |signed sign x| = x := by
  unfold signed
  split
  · exact abs_of_nonneg hx
  · rw [abs_neg, abs_of_nonneg hx]

theorem abs_signed_sub_self (s : ℕ) (x y : ℚ) : |signed s x - signed s y| = |x - y| := by
  unfold signed
  split
  · rfl
  · rw [neg_sub_neg, abs_sub_comm]

theorem abs_signed_sub_of_ne {s t : ℕ} (h : ¬(s = 0 ↔ t = 0)) {x y : ℚ} (hx : 0 ≤ x)
    (hy : 0 ≤ y) : |signed s x - signed t y| = x + y := by
  unfold signed
  by_cases hs : s = 0
  · rw [if_pos hs, if_neg fun ht => h ⟨fun _ => ht, fun _ => hs⟩, sub_neg_eq_add,
      abs_of_nonneg (add_nonneg hx hy)]
  · rw [if_neg hs, if_pos (by_contra fun ht => h ⟨fun h => absurd h hs, fun h => absurd h ht⟩),
      abs_sub_comm, sub_neg_eq_add, add_comm, abs_of_nonneg (add_nonneg hx hy)]

variable {f} {p : ℕ} {x : ℚ}

theorem signed_congr {s t : ℕ} (h : s = 0 ↔ t = 0) (x : ℚ) : signed s x = signed t x := by
  unfold signed
  simp only [h]

/-- A number of the other sign is no nearer than zero. -/
theorem nearest_of_roundsEven (hx : 0 ≤ x) (h : RoundsEven f.absValue x (f.rest p))
    (hfinite : f.IsFinite p) : f.Nearest (signed (f.signBit p) x) p := by
  have hmono := f.strictMono_absValue
  have hdist : |signed (f.signBit p) x - f.value p| = |x - f.absValue (f.rest p)| :=
    abs_signed_sub_self _ _ _
  have hzero : |x - f.absValue 0| = x := by rw [absValue_zero, sub_zero, abs_of_nonneg hx]
  have hle : ∀ u, |x - f.absValue (f.rest p)| ≤ |x - f.absValue u| := fun u => by
    by_cases hu : u = f.rest p
    · rw [hu]
    · rcases h.lt_abs_or hmono hu with hlt | ⟨hle, _⟩
      · exact hlt.le
      · exact hle
  have hother : ∀ n, ¬(f.signBit p = 0 ↔ f.signBit n = 0) →
      |signed (f.signBit p) x - f.value n| = x + f.absValue (f.rest n) := fun n hne =>
    abs_signed_sub_of_ne hne hx (f.absValue_nonneg _)
  have hsame : ∀ n, (f.signBit p = 0 ↔ f.signBit n = 0) →
      |signed (f.signBit p) x - f.value n| = |x - f.absValue (f.rest n)| := fun n hs => by
    rw [value, ← signed_congr hs, abs_signed_sub_self]
  refine ⟨hfinite, fun n _ => ?_, fun n _ hne heq => ?_⟩
  · rw [hdist]
    by_cases hs : f.signBit p = 0 ↔ f.signBit n = 0
    · rw [hsame n hs]
      exact hle _
    · rw [hother n hs]
      exact ((hle 0).trans hzero.le).trans (le_add_of_nonneg_right (f.absValue_nonneg _))
  · rw [hdist] at heq
    by_cases hs : f.signBit p = 0 ↔ f.signBit n = 0
    · rw [hsame n hs] at heq
      have hrest : f.rest n ≠ f.rest p := fun hrest =>
        hne (by rw [value, value, hrest, signed_congr hs])
      rcases h.lt_abs_or hmono hrest with hlt | ⟨_, heven⟩
      · exact absurd heq hlt.ne
      · exact heven
    · rw [hother n hs] at heq
      by_cases hr : f.rest p = 0
      · rw [hr]
      · rcases h.lt_abs_or hmono (Ne.symm hr) with hlt | ⟨_, heven⟩
        · rw [hzero, heq] at hlt
          exact absurd (f.absValue_nonneg (f.rest n)) (by linarith)
        · exact heven

/-- A number that a pattern stands for is nearest to itself only. -/
theorem Nearest.eq_of_value {n : ℕ} (h : f.Nearest (f.value n) p) (hn : f.IsFinite n)
    (hsign : f.signBit p = f.signBit n) : f.rest p = f.rest n := by
  have hle := h.le n hn
  rw [sub_self, abs_zero, value, value, hsign, abs_signed_sub_self] at hle
  have heq := sub_eq_zero.mp (abs_nonpos_iff.mp hle)
  exact (f.strictMono_absValue.injective heq).symm

end Format

end Binary
