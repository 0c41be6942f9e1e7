/-
The levels `DitheringCompressor` rounds to.

The levels of the natural partition are zero and the powers of two up to `2 ^ (s - 1)`.  An
element is divided by the scale and multiplied by the highest level, so that what is rounded
lies between zero and that level.  The two levels on both sides are found by rounding up to an
integer, and from there up to a power of two by the well known sequence of shifts; half of it is
the other level.

A random bit decides for one of the two.  Its probability is the position between them, so that
the value is what comes out on average.

All of it rests on a scale that no element exceeds.  For the largest norm that is what a maximum
is; for the Euclidean norm it is that a sum of squares is no less than any of them, and a root
without an error.

It rests on a scale that is not zero, too.  A gradient whose elements are all zero has the scale
zero, is divided by it, and what the code makes of the quotient is nothing the levels say
anything about.  It is the only such gradient, which is why the condition of the last theorem is
that it has an element that is not zero.
-/
import DeepInc.Lib.PowerOfTwo
import DeepInc.Proofs.Compressor.StreamSize
import Mathlib.Algebra.Order.Archimedean.Real.Basic
import Mathlib.Analysis.Real.Sqrt
import Mathlib.Tactic.LinearCombination

namespace DeepInc.Compressor

open PowerOfTwo

/-! ### The next power of two

`RoundNextPow2` smears the bits of `v - 1` downwards and adds one.  That smearing fills all
places below the highest bit is in `Lib/PowerOfTwo.lean`; here it is only read off.
-/

theorem roundNextPow2_toNat {v : BitVec 32} (hv : 1 ≤ v.toNat) (hle : v.toNat ≤ 2 ^ 31) :
    (roundNextPow2 v).toNat = 2 ^ (v.toNat - 1).size := by
  have hpred : (v - 1).toNat = v.toNat - 1 := BitVec.toNat_sub_of_le hv
  have hsmeared := (smeared_self (v.toNat - 1)).double.double.double.double.double.eq (by omega)
  have hsize : 2 ^ (v.toNat - 1).size ≤ 2 ^ 31 :=
    Nat.pow_le_pow_right Nat.two_pos (Nat.size_le.mpr (by omega))
  have hpos := Nat.two_pow_pos (v.toNat - 1).size
  unfold roundNextPow2
  simp only [BitVec.toNat_add, BitVec.toNat_or, BitVec.toNat_ushiftRight, hpred]
  rw [hsmeared, show (1 : BitVec 32).toNat = 1 from rfl]
  omega

theorem isLeast_roundNextPow2 {v : BitVec 32} (hv : 1 ≤ v.toNat) (hle : v.toNat ≤ 2 ^ 31) :
    IsLeast {n | v.toNat ≤ n ∧ ∃ k, n = 2 ^ k} (roundNextPow2 v).toNat := by
  rw [roundNextPow2_toNat hv hle]
  exact isLeast_two_pow_size hv

namespace Dithering

/-! ### The natural partition

The levels cut the values into cells: from zero to one, and from each power of two to the next.
What the code computes, `floor` and `length`, are the start and the length of the cell of the
value.  Once that is known, what is asked of the rounding are short computations with a start
and a length.
-/

/-- The levels of the natural partition. -/
def grid (s : ℕ) : Set ℕ := {n | n = 0 ∨ ∃ k < s, n = 2 ^ k}

/-- Two levels with no other in between. -/
structure Neighbours (levels : Set ℕ) (a b : ℕ) : Prop where
  left : a ∈ levels
  right : b ∈ levels
  lt : a < b
  gap : ∀ n ∈ levels, n ≤ a ∨ b ≤ n

theorem neighbours_zero_one {s : ℕ} (hs : 1 ≤ s) : Neighbours (grid s) 0 1 where
  left := .inl rfl
  right := .inr ⟨0, hs, rfl⟩
  lt := Nat.one_pos
  gap n _ := by omega

theorem neighbours_two_pow {s k : ℕ} (hk : k + 1 < s) :
    Neighbours (grid s) (2 ^ k) (2 ^ (k + 1)) where
  left := .inr ⟨k, by omega, rfl⟩
  right := .inr ⟨k + 1, hk, rfl⟩
  lt := Nat.pow_lt_pow_right Nat.one_lt_two (Nat.lt_succ_self k)
  gap n hn := by
    rcases hn with rfl | ⟨j, _, rfl⟩
    · exact .inl (Nat.zero_le _)
    · rcases Nat.lt_or_ge k j with hlt | hle
      · exact .inr (Nat.pow_le_pow_right Nat.two_pos hlt)
      · exact .inl (Nat.pow_le_pow_right Nat.two_pos hle)

theorem le_of_mem_grid {s n : ℕ} (hn : n ∈ grid s) : n ≤ 2 ^ (s - 1) := by
  rcases hn with rfl | ⟨k, hk, rfl⟩
  · exact Nat.zero_le _
  · exact Nat.pow_le_pow_right Nat.two_pos (by omega)

theorem level_toNat {K : Type} {p : Params K} (hs : 1 ≤ p.s.toNat) (hs' : p.s.toNat ≤ 31) :
    p.level.toNat = 2 ^ (p.s.toNat - 1) := by
  have hpred : (p.s - 1).toNat = p.s.toNat - 1 := BitVec.toNat_sub_of_le hs
  have hlt : 2 ^ (p.s.toNat - 1) < 2 ^ 32 := Nat.pow_lt_pow_right Nat.one_lt_two (by omega)
  unfold Params.level
  rw [hpred, Nat.mod_eq_of_lt (by omega), BitVec.toNat_shiftLeft, Nat.shiftLeft_eq,
    show (1 : BitVec 32).toNat = 1 from rfl, Nat.one_mul, Nat.mod_eq_of_lt hlt]

section Natural

variable {K : Type} [Field K] [LinearOrder K] [FloorSemiring K]

/-- `normalized`. -/
def normalized (p : Params K) (scale absX : K) : K := absX / scale * ((p.levels.toNat : ℕ) : K)

/-- `floor`, in the natural partition. -/
def naturalFloor (x : K) : BitVec 32 := roundNextPow2 (BitVec.ofNat 32 ⌈x⌉₊) >>> 1

/-- `length`, in the natural partition. -/
def naturalLength (x : K) : BitVec 32 := if naturalFloor x ≠ 0 then naturalFloor x else 1

/-- `p`, in the natural partition. -/
def naturalP (x : K) : K :=
  (x - (((naturalFloor x).toNat : ℕ) : K)) / (((naturalLength x).toNat : ℕ) : K)

/-- `quantized`, in the natural partition, once the random bit is known. -/
def naturalQuantized (x : K) (b : Bool) : BitVec 32 :=
  naturalFloor x + naturalLength x * BitVec.ofNat 32 b.toNat

theorem quantize_natural {p : Params K} (hp : p.ptype = .natural) (scale absX : K) (rng : Rng) :
    (quantize p scale absX rng).1 = naturalQuantized (normalized p scale absX)
      (rng.bernoulli (naturalP (normalized p scale absX))).1 := by
  unfold quantize normalized Params.levels
  simp only [hp]
  rfl

/-- What comes out on average, of a bit that is set with probability `q`. -/
def mean (q : K) (f : Bool → K) : K := (1 - q) * f false + q * f true

/-- What is asked of the rounding of `x` to the natural partition with `s` bits. -/
structure RoundsNatural (s : ℕ) (x : K) : Prop where
  p_nonneg : 0 ≤ naturalP x
  p_le_one : naturalP x ≤ 1
  floor_le : (((naturalFloor x).toNat : ℕ) : K) ≤ x
  le_floor_add_length :
    x ≤ (((naturalFloor x).toNat : ℕ) : K) + (((naturalLength x).toNat : ℕ) : K)
  neighbours : 0 < x → Neighbours (grid s) (naturalFloor x).toNat
    ((naturalFloor x).toNat + (naturalLength x).toNat)
  floor_add_length_mul_p :
    (((naturalFloor x).toNat : ℕ) : K) + (((naturalLength x).toNat : ℕ) : K) * naturalP x = x
  quantized_mem : ∀ b, (naturalQuantized x b).toNat ∈ grid s
  mean_eq : mean (naturalP x) (fun b => (((naturalQuantized x b).toNat : ℕ) : K)) = x

end Natural

section Cells

variable {K : Type} [Field K] [LinearOrder K] {x : K} {m floor length : ℕ}

/-- `floor` and `length` are the start and the length of the cell that `x` is in. -/
inductive InCell (m : ℕ) (x : K) (floor length : ℕ) : Prop
  | zero (hfloor : floor = 0) (hlength : length = 1) (hle : x ≤ 1)
  | pow (k : ℕ) (hk : k < m) (hfloor : floor = 2 ^ k) (hlength : length = 2 ^ k)
      (hlt : ((2 ^ k : ℕ) : K) < x) (hle : x ≤ ((2 ^ (k + 1) : ℕ) : K))

namespace InCell

theorem length_pos (h : InCell m x floor length) : 0 < length := by
  cases h with
  | zero _ hlength _ => omega
  | pow k _ _ hlength _ _ => exact hlength ▸ Nat.two_pow_pos k

theorem neighbours (h : InCell m x floor length) :
    Neighbours (grid (m + 1)) floor (floor + length) := by
  cases h with
  | zero hfloor hlength _ =>
      rw [hfloor, hlength]
      exact neighbours_zero_one (Nat.succ_pos m)
  | pow k hk hfloor hlength _ _ =>
      rw [hfloor, hlength, ← Nat.two_mul, ← pow_succ']
      exact neighbours_two_pow (Nat.succ_lt_succ hk)

theorem bounds (h : InCell m x floor length) (hx : 0 ≤ x) :
    ((floor : ℕ) : K) ≤ x ∧ x ≤ ((floor : ℕ) : K) + ((length : ℕ) : K) := by
  cases h with
  | zero hfloor hlength hle =>
      rw [hfloor, hlength, Nat.cast_zero, Nat.cast_one, zero_add]
      exact ⟨hx, hle⟩
  | pow k _ hfloor hlength hlt hle =>
      rw [hfloor, hlength, ← Nat.cast_add, ← Nat.two_mul, ← pow_succ']
      exact ⟨hlt.le, hle⟩

end InCell

variable [FloorSemiring K]

/-- `x` is rounded up to the next power of two, which is the end of its cell. -/
theorem inCell_natural (hm : m ≤ 30) (hle : x ≤ ((2 ^ m : ℕ) : K)) :
    InCell m x (naturalFloor x).toNat (naturalLength x).toNat := by
  have hceil : ⌈x⌉₊ ≤ 2 ^ m := Nat.ceil_le.mpr hle
  have hword : 2 ^ m ≤ 2 ^ 30 := Nat.pow_le_pow_right Nat.two_pos hm
  have hv : (BitVec.ofNat 32 ⌈x⌉₊).toNat = ⌈x⌉₊ := by
    rw [BitVec.toNat_ofNat, Nat.mod_eq_of_lt (by omega)]
  rcases Nat.lt_or_ge 1 ⌈x⌉₊ with hlt | hone
  · have hpow := roundNextPow2_toNat (v := BitVec.ofNat 32 ⌈x⌉₊) (by omega) (by omega)
    rw [hv] at hpow
    obtain ⟨k, hk⟩ : ∃ k, (⌈x⌉₊ - 1).size = k + 1 :=
      Nat.exists_eq_add_one.mpr (Nat.size_pos.mpr (by omega))
    have hkm : (⌈x⌉₊ - 1).size ≤ m := Nat.size_le.mpr (by omega)
    have hbelow : 2 ^ k ≤ ⌈x⌉₊ - 1 := Nat.lt_size.mp (by omega)
    have habove : ⌈x⌉₊ - 1 < 2 ^ (k + 1) := hk ▸ Nat.lt_size_self _
    have hfloor : (naturalFloor x).toNat = 2 ^ k := by
      unfold naturalFloor
      rw [BitVec.toNat_ushiftRight, hpow, hk, Nat.shiftRight_eq_div_pow, pow_one, pow_succ,
        Nat.mul_div_cancel _ Nat.two_pos]
    have hne : naturalFloor x ≠ 0 := fun h => by
      rw [h] at hfloor
      exact (Nat.two_pow_pos k).ne hfloor
    refine .pow k (by omega) hfloor ?_ (Nat.lt_ceil.mp (by omega)) (Nat.ceil_le.mp (by omega))
    unfold naturalLength
    rw [if_pos hne, hfloor]
  · have hfloor : naturalFloor x = 0 := by
      unfold naturalFloor
      rcases Nat.le_one_iff_eq_zero_or_eq_one.mp hone with h | h
      · rw [h]
        decide
      · rw [h]
        decide
    refine .zero (by rw [hfloor]; rfl) ?_ ((Nat.ceil_le.mp hone).trans_eq Nat.cast_one)
    unfold naturalLength
    rw [if_neg (not_not_intro hfloor)]
    rfl

theorem naturalQuantized_toNat (hm : m ≤ 30)
    (h : InCell m x (naturalFloor x).toNat (naturalLength x).toNat) (b : Bool) :
    (naturalQuantized x b).toNat =
      (naturalFloor x).toNat + (naturalLength x).toNat * b.toNat := by
  have hlt : (naturalFloor x).toNat + (naturalLength x).toNat < 2 ^ 32 := by
    have hle := le_of_mem_grid h.neighbours.right
    have hword : 2 ^ m ≤ 2 ^ 30 := Nat.pow_le_pow_right Nat.two_pos hm
    rw [Nat.add_sub_cancel] at hle
    omega
  unfold naturalQuantized
  rw [BitVec.toNat_add, BitVec.toNat_mul, BitVec.toNat_ofNat]
  cases b with
  | false =>
      simp only [Bool.toNat_false, Nat.zero_mod, Nat.mul_zero, Nat.add_zero]
      exact Nat.mod_eq_of_lt (by omega)
  | true =>
      simp only [Bool.toNat_true, Nat.mul_one]
      omega

variable [IsStrictOrderedRing K]

theorem roundsNatural {s : ℕ} (hs : 1 ≤ s) (hs' : s ≤ 31) (hx : 0 ≤ x)
    (hle : x ≤ ((2 ^ (s - 1) : ℕ) : K)) : RoundsNatural s x := by
  have hcell := inCell_natural (show s - 1 ≤ 30 by omega) hle
  have hneighbours := hcell.neighbours
  rw [Nat.sub_add_cancel hs] at hneighbours
  obtain ⟨hfloor, hlength⟩ := hcell.bounds hx
  have hpos : (0 : K) < (((naturalLength x).toNat : ℕ) : K) := Nat.cast_pos.mpr hcell.length_pos
  have hquantized := naturalQuantized_toNat (show s - 1 ≤ 30 by omega) hcell
  have hmul : (((naturalLength x).toNat : ℕ) : K) * naturalP x =
      x - (((naturalFloor x).toNat : ℕ) : K) := mul_div_cancel₀ _ hpos.ne'
  refine ⟨div_nonneg (sub_nonneg.mpr hfloor) hpos.le, (div_le_one hpos).mpr (by linarith), hfloor,
    hlength, fun _ => hneighbours, by rw [hmul]; ring, fun b => ?_, ?_⟩
  · rw [hquantized b]
    cases b with
    | false => exact hneighbours.left
    | true => simpa using hneighbours.right
  · unfold mean
    simp only [hquantized, Bool.toNat_false, Bool.toNat_true, Nat.mul_zero, Nat.mul_one,
      Nat.add_zero, Nat.cast_add]
    linear_combination hmul

theorem quantize_natural_mem {p : Params K} (hp : p.ptype = .natural) (hs : 1 ≤ p.s.toNat)
    (hs' : p.s.toNat ≤ 31) {scale absX : K} (hx : 0 ≤ normalized p scale absX)
    (hle : normalized p scale absX ≤ ((p.level.toNat : ℕ) : K)) (rng : Rng) :
    (quantize p scale absX rng).1.toNat ∈ grid p.s.toNat ∧
      (quantize p scale absX rng).1.toNat ≤ p.level.toNat := by
  have hlevel := level_toNat hs hs'
  have hmem := (roundsNatural hs hs' hx (hlevel ▸ hle)).quantized_mem
    (rng.bernoulli (naturalP (normalized p scale absX))).1
  rw [← quantize_natural hp scale absX rng] at hmem
  exact ⟨hmem, hlevel ▸ le_of_mem_grid hmem⟩

/--
**Rounding to the natural partition is unbiased**: a value is rounded to one of the two levels
next to it, and what comes out is the value on average.

The average is over the bit that decides for one of the two, which is set with the probability
the code asks `Bernoulli` for.
-/
theorem natural_unbiased {p : Params K} (hp : p.ptype = .natural) (hs : 1 ≤ p.s.toNat)
    (hs' : p.s.toNat ≤ 31) :
    p.level.toNat = 2 ^ (p.s.toNat - 1) ∧
    (∀ x : K, 0 ≤ x → x ≤ ((p.level.toNat : ℕ) : K) → RoundsNatural p.s.toNat x) ∧
    (∀ (scale absX : K) (rng : Rng), 0 ≤ normalized p scale absX →
      normalized p scale absX ≤ ((p.level.toNat : ℕ) : K) →
      (quantize p scale absX rng).1 = naturalQuantized (normalized p scale absX)
        (rng.bernoulli (naturalP (normalized p scale absX))).1 ∧
      (quantize p scale absX rng).1.toNat ∈ grid p.s.toNat ∧
      (quantize p scale absX rng).1.toNat ≤ p.level.toNat) ∧
    ∀ v : BitVec 32, 1 ≤ v.toNat → v.toNat ≤ 2 ^ 31 →
      IsLeast {n | v.toNat ≤ n ∧ ∃ k, n = 2 ^ k} (roundNextPow2 v).toNat := by
  have hlevel := level_toNat hs hs'
  exact ⟨hlevel, fun x hx hle => roundsNatural hs hs' hx (hlevel ▸ hle),
    fun scale absX rng hx hle => ⟨quantize_natural hp scale absX rng,
      quantize_natural_mem hp hs hs' hx hle rng⟩,
    fun v hv hle => isLeast_roundNextPow2 hv hle⟩

theorem natural_unbiased_four : RoundsNatural 3 (3 : ℚ) :=
  (natural_unbiased (p := (⟨3, .natural, .max, id⟩ : Params ℚ)) rfl (by decide)
    (by decide)).2.1 3 (by decide) (Nat.ofNat_le_cast.mpr (by decide))

end Cells

/-! ### The scale -/

section Scale

variable {K : Type} [Field K] [LinearOrder K]

/-- The square root the norm is taken with has no error. -/
def ExactSqrt (p : Params K) : Prop :=
  p.ntype = .l2 → ∀ y, 0 ≤ y → 0 ≤ p.sqrt y ∧ p.sqrt y * p.sqrt y = y

variable [IsStrictOrderedRing K]

/-- The sum of the squares is no less than any. -/
theorem sq_le_foldl_sum (src : Mem K) (is : List ℕ) (m : K) :
    m ≤ is.foldl (fun scale i => scale + src i * src i) m ∧
      (0 ≤ m → ∀ i ∈ is, src i * src i ≤ is.foldl (fun scale i => scale + src i * src i) m) := by
  induction is generalizing m with
  | nil => exact ⟨le_rfl, fun _ i hi => by cases hi⟩
  | cons i is ih =>
      obtain ⟨hm, his⟩ := ih (m + src i * src i)
      have hsq := mul_self_nonneg (src i)
      refine ⟨(le_add_of_nonneg_right hsq).trans hm, fun hnonneg j hj => ?_⟩
      rcases List.mem_cons.mp hj with rfl | hj
      · exact (le_add_of_nonneg_left hnonneg).trans hm
      · exact his (add_nonneg hnonneg hsq) j hj

/-- No element exceeds the scale. -/
theorem scale_bounds {p : Params K} (hsqrt : ExactSqrt p) (src : Mem K) (len : ℕ) :
    0 ≤ scale p src len ∧ ∀ i < len, |src i| ≤ scale p src len := by
  cases hp : p.ntype with
  | max =>
      refine ⟨?_, fun i hi => abs_le_scale hp src hi⟩
      unfold scale
      simp only [hp]
      exact (le_foldl_max src _ 0).1
  | l2 =>
      obtain ⟨hsum, hsq⟩ := sq_le_foldl_sum src (List.range len) 0
      obtain ⟨hroot, hexact⟩ := hsqrt hp _ hsum
      unfold scale
      simp only [hp]
      refine ⟨hroot, fun i hi => (mul_self_le_mul_self_iff (abs_nonneg _) hroot).mpr ?_⟩
      rw [abs_mul_abs_self, hexact]
      exact hsq le_rfl i (List.mem_range.mpr hi)

/-- The scale of a gradient is zero when all its elements are. -/
theorem scale_eq_zero_iff {p : Params K} (hsqrt : ExactSqrt p) (src : Mem K) (len : ℕ) :
    scale p src len = 0 ↔ ∀ i < len, src i = 0 := by
  constructor
  · intro hzero i hi
    exact abs_nonpos_iff.mp (hzero ▸ (scale_bounds hsqrt src len).2 i hi)
  · intro hall
    have hmem : ∀ i ∈ List.range len, src i = 0 := fun i hi => hall i (List.mem_range.mp hi)
    unfold scale
    cases hp : p.ntype with
    | max =>
        refine List.foldlRecOn (motive := fun m : K => m = 0) (List.range len) _ rfl
          fun m hm i hi => ?_
        rw [hm, hmem i hi, abs_zero, ite_self]
    | l2 =>
        have hsum : (List.range len).foldl (fun scale i => scale + src i * src i) 0 = 0 := by
          refine List.foldlRecOn (motive := fun m : K => m = 0) (List.range len) _ rfl
            fun m hm i hi => ?_
          rw [hm, hmem i hi, mul_zero, add_zero]
        simp only [hsum]
        exact mul_self_eq_zero.mp (hsqrt hp 0 le_rfl).2

end Scale

/-! ### Every element -/

section Elements

variable {K : Type} [Field K] [LinearOrder K] [FloorSemiring K]

/-- The number an element has when it is converted to `unsigned`. -/
def converted (p : Params K) (scale absX : K) (rng : Rng) : ℕ :=
  let x := normalized p scale absX
  match p.ptype with
  | .linear => ⌊x⌋₊ + (rng.bernoulli (x - (⌊x⌋₊ : K))).1.toNat
  | .natural => ⌈x⌉₊

/-- What the loop over the elements relies on. -/
structure Quantizes (p : Params K) (scale absX : K) (rng : Rng) : Prop where
  scale_ne_zero : scale ≠ 0
  normalized_nonneg : 0 ≤ normalized p scale absX
  converted_le : converted p scale absX rng ≤ p.levels.toNat
  quantized_le : (quantize p scale absX rng).1.toNat ≤ p.levels.toNat

variable [IsStrictOrderedRing K]

theorem quantizes {p : Params K} (hs : 1 ≤ p.s.toNat) (hs' : p.ptype = .natural → p.s.toNat ≤ 31)
    {scale absX : K} (hscale : scale ≠ 0) (hx : 0 ≤ absX) (hle : absX ≤ scale) (rng : Rng) :
    Quantizes p scale absX rng := by
  have hlevels : (0 : K) ≤ ((p.levels.toNat : ℕ) : K) := Nat.cast_nonneg _
  have hnonneg : 0 ≤ normalized p scale absX :=
    mul_nonneg (div_nonneg hx (hx.trans hle)) hlevels
  have hmost : normalized p scale absX ≤ ((p.levels.toNat : ℕ) : K) :=
    mul_le_of_le_one_left hlevels (div_le_one_of_le₀ hle (hx.trans hle))
  refine ⟨hscale, hnonneg, ?_, ?_⟩
  · unfold converted
    cases hp : p.ptype with
    | linear => exact floor_add_bernoulli_le hnonneg hmost rng
    | natural => exact Nat.ceil_le.mpr hmost
  · cases hp : p.ptype with
    | linear =>
        rw [show p.levels = p.s by unfold Params.levels; rw [hp]]
        exact quantize_le hp hx hle rng
    | natural =>
        have hlevel : p.levels = p.level := by
          unfold Params.levels
          rw [hp]
        rw [hlevel] at hmost ⊢
        exact (quantize_natural_mem hp hs (hs' hp) hnonneg hmost rng).2

/--
**Every gradient but zero has a scale.** The elements are divided by a number that is not zero
and rounded to a level of the partition, when one of them is not zero.

This is for both norms and both partitions.  A gradient that is zero is divided by its scale all
the same, which is zero as well.
-/
theorem quantizes_iff_exists_ne_zero {p : Params K} (hsqrt : ExactSqrt p) (hs : 1 ≤ p.s.toNat)
    (hs' : p.ptype = .natural → p.s.toNat ≤ 31) (src : Mem K) {len : ℕ} (hlen : 1 ≤ len) :
    (∀ i < len, ∀ rng, Quantizes p (scale p src len) |src i| rng) ↔ ∃ i < len, src i ≠ 0 := by
  constructor
  · intro h
    by_contra hzero
    have hall : ∀ i < len, src i = 0 := fun i hi => by_contra fun hne => hzero ⟨i, hi, hne⟩
    exact (h 0 hlen ⟨0, 0⟩).scale_ne_zero ((scale_eq_zero_iff hsqrt src len).mpr hall)
  · rintro ⟨i, hi, hne⟩ j hj rng
    have hscale : scale p src len ≠ 0 := fun hzero =>
      hne ((scale_eq_zero_iff hsqrt src len).mp hzero i hi)
    exact quantizes hs hs' hscale (abs_nonneg _) ((scale_bounds hsqrt src len).2 j hj) rng

theorem quantizes_iff_exists_ne_zero_real :
    Quantizes (⟨3, .natural, .l2, Real.sqrt⟩ : Params ℝ)
      (scale (⟨3, .natural, .l2, Real.sqrt⟩ : Params ℝ) (fun i => (i : ℝ)) 2) |((1 : ℕ) : ℝ)|
      ⟨1, 1⟩ :=
  (quantizes_iff_exists_ne_zero (p := (⟨3, .natural, .l2, Real.sqrt⟩ : Params ℝ))
    (fun _ y hy => ⟨Real.sqrt_nonneg y, Real.mul_self_sqrt hy⟩) (by decide) (fun _ => by decide)
    (fun i => (i : ℝ)) (by decide)).mpr ⟨1, by decide, Nat.cast_ne_zero.mpr one_ne_zero⟩
    1 (by decide) ⟨1, 1⟩

theorem zero_has_no_scale : ¬ ∀ i < 1, ∀ rng,
    Quantizes (⟨1, .linear, .max, id⟩ : Params ℚ)
      (scale (⟨1, .linear, .max, id⟩ : Params ℚ) (fun _ => 0) 1) |(0 : ℚ)| rng := by
  intro h
  exact (h 0 Nat.one_pos ⟨0, 0⟩).scale_ne_zero (by decide)

end Elements

end Dithering

end DeepInc.Compressor
