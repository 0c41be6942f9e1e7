/-
How long the stream of `DitheringCompressor` gets.

What stands behind the stream is found again through the number of its words, which is
computed in `float`, and through its number of bits, which is stored in one word.  The number
of bits is counted here.  Every element that is not rounded to zero takes the code word of its
distance from the last one, a bit for its sign and the code word of its level.

The bound comes from trading distance against density: a distance of `d` is written with no
more bits than `d` distances of one and the signs between them, so that a gap never costs more
than elements in it would.  With a bound on the levels, most bits are therefore needed when no
element is skipped and every one is at the highest level, and the gradient of ones is such a
gradient.

The highest level is `s` for exact numbers.  The code computes with `float` and `double`, and
there it is what `s` becomes as a `float`, which from `2 ^ 24` on may be more than `s`: a quotient
of at most one is rounded to at most one, a product of it with `s` to at most `s`, and the
conversion to `float` keeps the order as well.
-/
import DeepInc.Proofs.Compressor.Blocks
import DeepInc.Proofs.Compressor.Dithering
import DeepInc.Proofs.Compressor.Footprint
import Mathlib.Algebra.Order.Field.Basic
import Mathlib.Algebra.Order.Floor.Semiring
import Mathlib.Data.Rat.Floor

namespace DeepInc.Compressor

open EliasDelta

variable {w : ℕ} {K : Type}

namespace Dithering

/-! ### The most bits -/

/-- A distance is written with no more bits than so many distances of one and their signs. -/
theorem length_code_add_two_le {d : ℕ} (hd : 1 ≤ d) : (code d).length + 2 ≤ 3 * d := by
  have hlog : d.log2 + 1 ≤ d := by
    have h₁ := Nat.log2_self_le (show d ≠ 0 by omega)
    have h₂ := Nat.lt_two_pow_self (n := d.log2)
    omega
  have hlen : (d.log2 + 1).log2 ≤ d.log2 := by
    have h₁ : 2 ^ (d.log2 + 1).log2 ≤ d.log2 + 1 := Nat.log2_self_le (Nat.succ_ne_zero d.log2)
    have h₂ := Nat.lt_two_pow_self (n := (d.log2 + 1).log2)
    omega
  rw [length_code]
  omega

theorem one_le_length_code (x : ℕ) : 1 ≤ (code x).length :=
  Nat.one_le_iff_ne_zero.mpr fun h => code_ne_nil x (List.length_eq_zero_iff.mp h)

theorem length_code_mono {x y : ℕ} (h : x ≤ y) : (code x).length ≤ (code y).length := by
  have hlog : x.log2 ≤ y.log2 := by
    rcases Nat.eq_zero_or_pos x with rfl | hx
    · exact Nat.zero_le _
    · exact (Nat.le_log2 (by omega)).mpr ((Nat.log2_self_le hx.ne').trans h)
  rcases hlog.lt_or_eq with hlt | heq
  · exact (length_code_lt hlt).le
  · rw [length_code, length_code, heq]

/-- The bits of elements before `len` whose levels are at most `s`. -/
theorem length_encode_le {s len lo : ℕ} {xs : List Item} (hx : Encodable lo xs)
    (hlt : ∀ x ∈ xs, x.index < len) (hs : ∀ x ∈ xs, x.quantized.toNat ≤ s) :
    (encode (BitVec.ofNat 64 lo - 1) xs).length ≤ (len - lo) * (2 + (code s).length) := by
  induction xs generalizing lo with
  | nil => exact Nat.zero_le _
  | cons x xs ih =>
      have hle := hx.le x List.mem_cons_self
      have hindex := hx.lt x List.mem_cons_self
      have hbefore := hlt x List.mem_cons_self
      have hlast : BitVec.ofNat 64 x.index = BitVec.ofNat 64 (x.index + 1) - 1 := by
        rw [BitVec.ofNat_add]
        exact (BitVec.add_sub_cancel _ _).symm
      have hrest := ih hx.tail (fun y hy => hlt y (List.mem_cons_of_mem x hy))
        fun y hy => hs y (List.mem_cons_of_mem x hy)
      have hlevel := length_code_mono (hs x List.mem_cons_self)
      have hgap := length_code_add_two_le (show 1 ≤ x.index + 1 - lo by omega)
      have hone := one_le_length_code s
      rw [encode, toNat_diff hle hindex, hlast]
      simp only [List.length_append, List.length_cons]
      obtain ⟨d, hd⟩ : ∃ d, x.index + 1 - lo = d + 1 := ⟨x.index - lo, by omega⟩
      have hsplit : (len - lo) * (2 + (code s).length) =
          (2 + (code s).length) + d * (2 + (code s).length) +
            (len - (x.index + 1)) * (2 + (code s).length) := by
        rw [show len - lo = 1 + d + (len - (x.index + 1)) by omega, Nat.add_mul, Nat.add_mul,
          Nat.one_mul]
      have hmul : d * 3 ≤ d * (2 + (code s).length) := Nat.mul_le_mul_left d (by omega)
      rw [hsplit]
      rw [hd] at hgap ⊢
      omega

section Levels

variable [Field K] [LinearOrder K] [IsStrictOrderedRing K] [FloorSemiring K]

omit [FloorSemiring K] in
/-- Something that happens has a positive probability. -/
theorem pos_of_bernoulli {rng : Rng} {q : K} (h : (rng.bernoulli q).1 = true) : 0 < q := by
  have hlt : ((rng.xorshift128p.1.toNat : ℕ) : K) < q * ((2 ^ 64 - 1 : ℕ) : K) :=
    of_decide_eq_true h
  exact pos_of_mul_pos_left ((Nat.cast_nonneg _).trans_lt hlt) (Nat.cast_nonneg _)

/-- What is rounded to one of the integers next to it does not exceed a bound of its own. -/
theorem floor_add_bernoulli_le {x : K} {n : ℕ} (hx : 0 ≤ x) (hle : x ≤ n) (rng : Rng) :
    ⌊x⌋₊ + (rng.bernoulli (x - (⌊x⌋₊ : K))).1.toNat ≤ n := by
  have hfloor : (⌊x⌋₊ : K) ≤ x := Nat.floor_le hx
  cases hb : (rng.bernoulli (x - (⌊x⌋₊ : K))).1 with
  | false => exact Nat.cast_le.mp (hfloor.trans hle)
  | true => exact Nat.cast_lt.mp ((sub_pos.mp (pos_of_bernoulli hb)).trans_le hle)

/-- The levels of the linear partition end with `s`. -/
theorem quantize_le {p : Params K} (hp : p.ptype = .linear) {scale x : K} (hx : 0 ≤ x)
    (hscale : x ≤ scale) (rng : Rng) : (quantize p scale x rng).1.toNat ≤ p.s.toNat := by
  have hs : (0 : K) ≤ ((p.s.toNat : ℕ) : K) := Nat.cast_nonneg _
  have hle : x / scale * ((p.s.toNat : ℕ) : K) ≤ ((p.s.toNat : ℕ) : K) :=
    mul_le_of_le_one_left hs (div_le_one_of_le₀ hscale (hx.trans hscale))
  have hnonneg : 0 ≤ x / scale * ((p.s.toNat : ℕ) : K) :=
    mul_nonneg (div_nonneg hx (hx.trans hscale)) hs
  unfold quantize
  simp only [hp]
  rw [BitVec.toNat_ofNat]
  exact (Nat.mod_le _ _).trans (floor_add_bernoulli_le hnonneg hle rng)

omit [IsStrictOrderedRing K] [FloorSemiring K] in
/-- The greatest absolute value is no less than any. -/
theorem le_foldl_max (src : Mem K) (is : List ℕ) (m : K) :
    m ≤ is.foldl (fun scale i => if |src i| < scale then scale else |src i|) m ∧
      ∀ i ∈ is, |src i| ≤
        is.foldl (fun scale i => if |src i| < scale then scale else |src i|) m := by
  induction is generalizing m with
  | nil => exact ⟨le_rfl, fun i hi => by cases hi⟩
  | cons i is ih =>
      obtain ⟨hm, his⟩ := ih (if |src i| < m then m else |src i|)
      have hstep : m ≤ (if |src i| < m then m else |src i|) ∧
          |src i| ≤ (if |src i| < m then m else |src i|) := by
        split
        · exact ⟨le_rfl, by rename_i h; exact h.le⟩
        · exact ⟨by rename_i h; exact not_lt.mp h, le_rfl⟩
      refine ⟨hstep.1.trans hm, fun j hj => ?_⟩
      rcases List.mem_cons.mp hj with rfl | hj
      · exact hstep.2.trans hm
      · exact his j hj

omit [IsStrictOrderedRing K] [FloorSemiring K] in
theorem abs_le_scale {p : Params K} (hp : p.ntype = .max) (src : Mem K) {len i : ℕ} (hi : i < len) :
    |src i| ≤ scale p src len := by
  unfold scale
  simp only [hp]
  exact (le_foldl_max src _ 0).2 i (List.mem_range.mpr hi)

end Levels

/-! ### Every gradient

A rounding of absolute values to levels is all that the loop over the elements needs to know,
so that nothing here depends on how it computes them. -/

section Gradients

variable [Field K] [LinearOrder K] {quantize : K → Rng → BitVec 32 × Rng} {src : Mem K}

/-- The most bits a gradient of `len` elements takes with levels up to `s`. -/
def mostBits (s len : ℕ) : ℕ := if s = 0 then 0 else len * (2 + (code s).length)

theorem items_level_le {s : ℕ} {is : List ℕ}
    (h : ∀ i ∈ is, ∀ rng, (quantize |src i| rng).1.toNat ≤ s) (rng : Rng) :
    ∀ x ∈ items quantize src rng is, x.quantized.toNat ≤ s := by
  induction is generalizing rng with
  | nil => intro x hx; cases hx
  | cons i is ih =>
      intro x hx
      have hrest := ih fun j hj => h j (List.mem_cons_of_mem i hj)
      unfold items at hx
      by_cases hq : (quantize |src i| rng).1 ≠ 0
      · simp only [if_pos hq] at hx
        rcases List.mem_cons.mp hx with rfl | hx
        · exact h i List.mem_cons_self rng
        · exact hrest _ x hx
      · simp only [if_neg hq] at hx
        exact hrest _ x hx

theorem streamBits_le {s len : ℕ} (hlen : len < 2 ^ 64)
    (h : ∀ i < len, ∀ rng, (quantize |src i| rng).1.toNat ≤ s) (rng : Rng) :
    streamBits quantize rng src len ≤ mostBits s len := by
  have hlevel : ∀ x ∈ items quantize src rng (List.range len), x.quantized.toNat ≤ s :=
    items_level_le (fun i hi => h i (List.mem_range.mp hi)) rng
  unfold streamBits mostBits
  by_cases hs : s = 0
  · rw [if_pos hs]
    cases hitems : items quantize src rng (List.range len) with
    | nil => exact le_rfl
    | cons x xs =>
        rw [hitems] at hlevel
        have hx := hlevel x List.mem_cons_self
        have hne := (mem_items (hitems ▸ List.mem_cons_self)).2
        rw [hs, Nat.le_zero] at hx
        exact absurd (BitVec.eq_of_toNat_eq hx) hne
  · rw [if_neg hs]
    have h := length_encode_le (encodable_items quantize src rng hlen)
      (fun x hx => List.mem_range.mp (mem_items hx).1) hlevel
    rwa [Nat.sub_zero, show BitVec.ofNat 64 0 - 1 = (-1 : BitVec 64) by decide] at h

/-- Elements that are all at one level, one next to the other. -/
theorem length_encode_level {s lo n : ℕ} (hs : s ≠ 0)
    (h : ∀ i, lo ≤ i → i < lo + n → ∀ rng, (quantize |src i| rng).1.toNat = s) (rng : Rng)
    (hlo : lo + n < 2 ^ 64) : (encode (BitVec.ofNat 64 lo - 1)
      (items quantize src rng (List.range' lo n))).length = n * (2 + (code s).length) := by
  induction n generalizing lo rng with
  | zero => simp [items, encode]
  | succ n ih =>
      have hlevel := h lo le_rfl (by omega) rng
      have hne : (quantize |src lo| rng).1 ≠ 0 := fun h0 => hs (by rw [← hlevel, h0]; rfl)
      have hlast : BitVec.ofNat 64 lo = BitVec.ofNat 64 (lo + 1) - 1 := by
        rw [BitVec.ofNat_add]
        exact (BitVec.add_sub_cancel _ _).symm
      rw [List.range'_succ, items]
      simp only [if_pos hne]
      rw [encode, toNat_diff le_rfl (show lo + 1 < 2 ^ 64 by omega),
        show lo + 1 - lo = 1 by omega, hlast]
      simp only [List.length_append, List.length_cons]
      rw [ih (fun i hi hi' => h i (by omega) (by omega)) _ (by omega), hlevel, Nat.succ_mul,
        show (code 1).length = 1 by decide]
      omega

theorem streamBits_eq {s len : ℕ} (hlen : len < 2 ^ 64)
    (h : ∀ i < len, ∀ rng, (quantize |src i| rng).1.toNat = s) (rng : Rng) :
    streamBits quantize rng src len = mostBits s len := by
  by_cases hs : s = 0
  · refine le_antisymm (streamBits_le hlen (fun i hi rng => (h i hi rng).le) rng) ?_
    unfold mostBits
    rw [if_pos hs]
    exact Nat.zero_le _
  · have hone : ∀ i, 0 ≤ i → i < 0 + len → ∀ rng, (quantize |src i| rng).1.toNat = s :=
      fun i _ hi => h i (by omega)
    have hbits := length_encode_level hs hone rng (by omega)
    unfold streamBits mostBits
    rw [if_neg hs, List.range_eq_range', ← hbits,
      show BitVec.ofNat 64 0 - 1 = (-1 : BitVec 64) by decide]

end Gradients

/-! ### As it is rounded

The operations are followed one after another, from the quotient to the sum that is converted.
Each keeps the order, and each leaves the bound it is given as it is: one, `s`, and what `s`
becomes as a `float`. -/

section Rounded

/-- The highest level of the linear partition: `_s` as a `float`. -/
def highest (s : BitVec 32) : ℕ := Ieee.roundNat 24 s.toNat

theorem double_mono {x y : ℚ} (hx : 0 ≤ x) (h : x ≤ y) : Ieee.double x ≤ Ieee.double y :=
  Ieee.round_mono (by decide) hx h

theorem double_nonneg {x : ℚ} (hx : 0 ≤ x) : 0 ≤ Ieee.double x := by
  have h := double_mono le_rfl hx
  rwa [Ieee.double, Ieee.round_zero] at h

/-- An integer of 53 bits is a `double`. -/
theorem double_natCast {n : ℕ} (hn : n < 2 ^ 53) : Ieee.double n = n := by
  have h := Ieee.round_natCast_mul_zpow hn 0
  rwa [zpow_zero, mul_one] at h

/-- Something that happens has a positive probability. -/
theorem pos_of_bernoulliFloat {rng : Rng} {q : ℚ} (hq : 0 ≤ q)
    (h : (rng.bernoulliFloat q).1 = true) : 0 < q := by
  refine hq.lt_of_ne fun h0 => ?_
  have hlt : Ieee.double (rng.xorshift128p.1.toNat : ℕ) <
      Ieee.double (q * Ieee.double ((2 ^ 64 - 1 : ℕ) : ℚ)) := of_decide_eq_true h
  rw [← h0, zero_mul, show Ieee.double 0 = 0 from Ieee.round_zero 53] at hlt
  exact absurd hlt (not_lt.mpr (double_nonneg (Nat.cast_nonneg _)))

/-- What is rounded to one of the integers next to it does not exceed a bound of its own. -/
theorem floor_add_bernoulliFloat_le {x : ℚ} {n : ℕ} (hx : 0 ≤ x) (hle : x ≤ n) (rng : Rng) :
    ⌊x⌋₊ + (rng.bernoulliFloat (Ieee.float (x - (⌊x⌋₊ : ℚ)))).1.toNat ≤ n := by
  have hfloor : (⌊x⌋₊ : ℚ) ≤ x := Nat.floor_le hx
  cases hb : (rng.bernoulliFloat (Ieee.float (x - (⌊x⌋₊ : ℚ)))).1 with
  | false => exact Nat.cast_le.mp (hfloor.trans hle)
  | true =>
      have hpos := pos_of_bernoulliFloat (Ieee.float_nonneg (sub_nonneg.mpr hfloor)) hb
      have hne : (⌊x⌋₊ : ℚ) ≠ x := fun heq => by
        rw [heq, sub_self, Ieee.float_zero] at hpos
        exact lt_irrefl _ hpos
      exact Nat.cast_lt.mp ((hfloor.lt_of_ne hne).trans_le hle)

/-- No level is above the highest. -/
theorem levelFloat_le {s : BitVec 32} {scale x : ℚ} (hx : 0 ≤ x) (hscale : x ≤ scale) (rng : Rng) :
    (levelFloat s scale x rng).1 ≤ highest s := by
  have hs : s.toNat < 2 ^ 53 := s.isLt.trans (by decide)
  have hquot : 0 ≤ x / scale ∧ x / scale ≤ 1 :=
    ⟨div_nonneg hx (hx.trans hscale), div_le_one_of_le₀ hscale (hx.trans hscale)⟩
  have hdouble : 0 ≤ Ieee.double (x / scale) ∧ Ieee.double (x / scale) ≤ 1 := by
    refine ⟨double_nonneg hquot.1, (double_mono hquot.1 hquot.2).trans ?_⟩
    exact_mod_cast (double_natCast (n := 1) (by decide)).le
  have hprod : 0 ≤ Ieee.double (x / scale) * (s.toNat : ℕ) ∧
      Ieee.double (x / scale) * (s.toNat : ℕ) ≤ (s.toNat : ℕ) :=
    ⟨mul_nonneg hdouble.1 (Nat.cast_nonneg _), mul_le_of_le_one_left (Nat.cast_nonneg _) hdouble.2⟩
  have hrounded : Ieee.double (Ieee.double (x / scale) * (s.toNat : ℕ)) ≤ (s.toNat : ℕ) :=
    (double_mono hprod.1 hprod.2).trans (double_natCast hs).le
  have hnormalized : Ieee.float (Ieee.double (Ieee.double (x / scale) * (s.toNat : ℕ))) ≤
      (highest s : ℕ) :=
    (Ieee.float_mono (double_nonneg hprod.1) hrounded).trans (Ieee.float_natCast _).le
  have hsum := floor_add_bernoulliFloat_le (Ieee.float_nonneg (double_nonneg hprod.1))
    hnormalized rng
  refine Nat.floor_le_of_le ?_
  calc _ ≤ Ieee.float (highest s : ℕ) := Ieee.float_mono (Nat.cast_nonneg _) (Nat.cast_le.mpr hsum)
    _ = highest s := Ieee.float_roundNat _

/-- A greatest element is at the highest level. -/
theorem levelFloat_self (s : BitVec 32) {x : ℚ} (hx : x ≠ 0) (rng : Rng) :
    (levelFloat s x x rng).1 = highest s := by
  have hs : s.toNat < 2 ^ 53 := s.isLt.trans (by decide)
  have hone : Ieee.double (x / x) = 1 := by
    rw [div_self hx]
    exact_mod_cast double_natCast (n := 1) (by decide)
  have hnormalized : Ieee.float (Ieee.double (Ieee.double (x / x) * (s.toNat : ℕ))) =
      (highest s : ℕ) := by
    rw [hone, one_mul, double_natCast hs, Ieee.float_natCast]
    rfl
  have hnever : (rng.bernoulliFloat 0).1 = false := by
    rw [Bool.eq_false_iff]
    exact fun h => lt_irrefl _ (pos_of_bernoulliFloat le_rfl h)
  unfold levelFloat
  simp only [hnormalized, Nat.floor_natCast, sub_self, Ieee.float_zero, hnever, Bool.toNat_false,
    Nat.add_zero]
  rw [highest, Ieee.float_roundNat, Nat.floor_natCast]

/-- As long as the highest level is an `unsigned`, so is every other. -/
theorem toNat_quantizeFloat {s : BitVec 32} {scale x : ℚ} {rng : Rng}
    (h : (levelFloat s scale x rng).1 < 2 ^ 32) :
    (quantizeFloat s scale x rng).1.toNat = (levelFloat s scale x rng).1 := by
  unfold quantizeFloat
  rw [BitVec.toNat_ofNat, Nat.mod_eq_of_lt h]

/-- The greatest absolute value of ones. -/
theorem scale_ones {p : Params ℚ} (hp : p.ntype = .max) {len : ℕ} (hlen : 0 < len) :
    scale p (fun _ => (1 : ℚ)) len = 1 := by
  refine le_antisymm ?_ ?_
  · unfold scale
    simp only [hp]
    refine List.foldlRecOn (motive := fun m : ℚ => m ≤ 1) (List.range len) _ zero_le_one
      fun m hm i _ => ?_
    rw [abs_one]
    split
    · exact hm
    · exact le_rfl
  · have h := abs_le_scale hp (fun _ => (1 : ℚ)) hlen
    rwa [abs_one] at h

/-- Ones are at the highest level. -/
theorem streamBits_ones {s : BitVec 32} (hs : highest s < 2 ^ 32) {len : ℕ} (hlen : len < 2 ^ 64)
    (rng : Rng) :
    streamBits (quantizeFloat s 1) rng (fun _ => 1) len = mostBits (highest s) len := by
  refine streamBits_eq hlen (fun i _ rng => ?_) rng
  have hlevel : (levelFloat s 1 |(1 : ℚ)| rng).1 = highest s := by
    rw [abs_one]
    exact levelFloat_self s one_ne_zero rng
  rw [toNat_quantizeFloat (hlevel ▸ hs), hlevel]

end Rounded

end Dithering

end DeepInc.Compressor
