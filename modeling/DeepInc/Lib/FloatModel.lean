/-
Numbers that are computed without rounding.

A `float` of Lean is a pattern; its operations unpack their arguments, compute with a significand
and an exponent, round and pack.  What is proved here is about the steps in between, so that what
an operation gives can be said where nothing is lost.

Two kinds of computation lose nothing.  The one is a product with a power of two: when the
significand of the result has 24 bits and its exponent is one of a normal number, nothing is
rounded, and what is packed can be said.  The other is a product with one or with its negative,
of any number whatever: a number that was read has the significand and the exponent it would be
rounded to, and what was read is written again.

The conversions between `float` and `double` have no model of their own.  They are defined here
as what the standard says they are, the nearest number of the other format.
-/
import Mathlib

namespace FloatModel

open Float.Model Float.Model.UnpackedFloat

/-- No bit is lost. -/
theorem shiftRight_mul (m n : ℕ) :
    ((⟨m * 2 ^ n, false, false⟩ : ExtendedMantissa) >>> n) = ⟨m, false, false⟩ := by
  show n.repeat ExtendedMantissa.shiftRightOne _ = _
  induction n generalizing m with
  | zero =>
      show (⟨m * 2 ^ 0, false, false⟩ : ExtendedMantissa) = _
      rw [Nat.pow_zero, Nat.mul_one]
  | succ n ih =>
      have hstep : m * 2 ^ (n + 1) = m * 2 * 2 ^ n := by ring
      show (n.repeat ExtendedMantissa.shiftRightOne _).shiftRightOne = _
      rw [hstep, ih]
      unfold ExtendedMantissa.shiftRightOne
      simp

/-! ### Other formats -/

/-- The nearest number of a format, ties to even. -/
def convert (spec : Format) : UnpackedFloat → UnpackedFloat
  | .finite s m e _ => UnpackedFloat.round spec s m e
  | x => x

/-- A `float` as a `double`. -/
def toDouble (x : Float32) : Float := .ofModel (.pack (convert .binary64 x.toModel.unpack))

/-- A `double` as a `float`. -/
def toSingle (x : Float) : Float32 := .ofModel (.pack (convert .binary32 x.toModel.unpack))

/-! ### What is not rounded

A number that is written with the exponent it would be rounded to is left as it is.  For a
normal number this is the exponent that gives the significand 24 bits, for a subnormal one it
is the least exponent there is. -/

/-- The significand and the exponent of a `float` that is not zero. -/
structure Canonical (m : ℕ) (e : ℤ) : Prop where
  pos : 0 < m
  lt : m < 2 ^ 24
  min_le : -149 ≤ e
  normal : 2 ^ 23 ≤ m ∨ e = -149

theorem Canonical.log2_mul {m : ℕ} {e : ℤ} (h : Canonical m e) (n : ℕ) :
    (m * 2 ^ n).log2 = m.log2 + n := by
  have hle := Nat.log2_self_le h.pos.ne'
  have hlt := Nat.lt_log2_self (n := m)
  have hpos := Nat.two_pow_pos n
  rw [Nat.log2_eq_iff (Nat.mul_pos h.pos hpos).ne', pow_add]
  refine ⟨Nat.mul_le_mul_right _ hle, ?_⟩
  rw [Nat.add_right_comm, pow_add]
  exact Nat.mul_lt_mul_of_pos_right hlt hpos

/-- The exponent of a canonical number is the one it is rounded to. -/
theorem Canonical.targetExponent {m : ℕ} {e : ℤ} (h : Canonical m e) (n : ℕ) :
    Format.binary32.targetExponent (totalExponent (m * 2 ^ n) (e - n)) = e := by
  have hlog : m.log2 < 24 := (Nat.log2_lt h.pos.ne').mpr h.lt
  have hmin := h.min_le
  have hnormal : m.log2 = 23 ∨ e = -149 := h.normal.imp_left fun hle => by
    have := (Nat.le_log2 h.pos.ne').mpr hle
    omega
  unfold totalExponent Format.targetExponent Format.minExponent Format.mantissaBits
  rw [h.log2_mul]
  dsimp only
  omega

theorem Canonical.shift {m : ℕ} {e : ℤ} (h : Canonical m e) (n : ℕ) :
    shiftToTargetExponent .binary32 (m * 2 ^ n) (e - n) .exact = (⟨m, false, false⟩, e) := by
  unfold shiftToTargetExponent shiftToExponent
  rw [h.targetExponent n]
  have hn : (e - (e - n)).toNat = n := by omega
  dsimp only
  rw [hn, show e - (n : ℤ) + n = e by omega]
  exact congrArg (·, e) (shiftRight_mul m n)

/-- Nothing is rounded. -/
theorem Canonical.roundWithAccuracy {m : ℕ} {e : ℤ} (h : Canonical m e) (s : Sign) (n : ℕ) :
    UnpackedFloat.roundWithAccuracy .binary32 s (m * 2 ^ n) (e - n) .exact =
      .finite s m e h.pos := by
  have hzero := h.shift 0
  rw [pow_zero, Nat.mul_one, Nat.cast_zero, sub_zero] at hzero
  have hround : (⟨m, false, false⟩ : ExtendedMantissa).roundedMantissa = m := rfl
  unfold UnpackedFloat.roundWithAccuracy
  simp only [h.shift n, hround, hzero, dif_neg h.pos.ne']

/-! ### Normal numbers -/

/-- A significand of 24 bits. -/
structure Normal (m : ℕ) : Prop where
  le : 2 ^ 23 ≤ m
  lt : m < 2 ^ 24

theorem Normal.log2_mul {m : ℕ} (h : Normal m) (n : ℕ) : (m * 2 ^ n).log2 = 23 + n := by
  have hpos : m * 2 ^ n ≠ 0 := by
    have := h.le
    have := Nat.two_pow_pos n
    exact Nat.mul_ne_zero (by omega) (by omega)
  rw [Nat.log2_eq_iff hpos]
  constructor
  · rw [pow_add]
    exact Nat.mul_le_mul_right _ h.le
  · rw [Nat.add_right_comm, pow_add]
    exact Nat.mul_lt_mul_of_pos_right h.lt (Nat.two_pow_pos n)

theorem Normal.pos {m : ℕ} (h : Normal m) : 0 < m := by
  have := h.le
  omega

theorem Normal.canonical {m : ℕ} (h : Normal m) {e : ℤ} (he : -149 ≤ e) : Canonical m e :=
  ⟨h.pos, h.lt, he, .inl h.le⟩

/-- Nothing is rounded. -/
theorem Normal.roundWithAccuracy {m : ℕ} (h : Normal m) (s : Sign) (n : ℕ) {e : ℤ}
    (he : -149 ≤ e + n) :
    UnpackedFloat.roundWithAccuracy .binary32 s (m * 2 ^ n) e .exact = .finite s m (e + n) h.pos := by
  have hround := (h.canonical he).roundWithAccuracy s n
  rwa [show e + (n : ℤ) - n = e by omega] at hround

/-- The significand of a number below `2 ^ 24`. -/
theorem normal_of_log2 {v : ℕ} (hpos : 0 < v) (hlt : v < 2 ^ 24) :
    Normal (v * 2 ^ (23 - v.log2)) := by
  have hlog : v.log2 < 24 := (Nat.log2_lt hpos.ne').mpr hlt
  have hle := Nat.log2_self_le hpos.ne'
  have hsucc := Nat.lt_log2_self (n := v)
  have hsplit : 2 ^ v.log2 * 2 ^ (23 - v.log2) = 2 ^ 23 := by
    rw [← pow_add, Nat.add_sub_cancel' (by omega)]
  have htwice : 2 ^ (v.log2 + 1) * 2 ^ (23 - v.log2) = 2 ^ 24 := by
    rw [pow_succ, Nat.mul_right_comm, hsplit]
    rfl
  constructor
  · rw [← hsplit]
    exact Nat.mul_le_mul_right _ hle
  · rw [← htwice]
    exact Nat.mul_lt_mul_of_pos_right hsucc (Nat.two_pow_pos _)

/-- A natural number that fits in a significand. -/
theorem ofNat_eq {v : ℕ} (hpos : 0 < v) (hlt : v < 2 ^ 24) :
    UnpackedFloat.ofNat .binary32 v = .finite .positive (v * 2 ^ (23 - v.log2)) (v.log2 - 23)
      (normal_of_log2 hpos hlt).pos := by
  have hlog : v.log2 < 24 := (Nat.log2_lt hpos.ne').mpr hlt
  have hcompare : compare (v : ℤ) 0 = .gt := by
    rw [Int.compare_eq_gt]
    exact_mod_cast hpos
  have htarget : Format.binary32.targetExponent (totalExponent v 0) = v.log2 - 23 := by
    unfold totalExponent Format.targetExponent Format.minExponent Format.mantissaBits
    dsimp only
    omega
  have hdecrease : decreaseExponent v 0 (v.log2 - 23) = (v * 2 ^ (23 - v.log2), (v.log2 - 23 : ℤ)) := by
    unfold decreaseExponent
    have hshift : ((0 : ℤ) - (v.log2 - 23)).toNat = 23 - v.log2 := by omega
    rw [hshift]
    refine Prod.ext (Nat.shiftLeft_eq _ _) ?_
    dsimp only
    omega
  have hround := (normal_of_log2 hpos hlt).roundWithAccuracy .positive 0 (e := v.log2 - 23) (by omega)
  unfold UnpackedFloat.ofNat UnpackedFloat.ofInt UnpackedFloat.normalize
  rw [hcompare]
  dsimp only
  unfold UnpackedFloat.round
  rw [Int.toNat_natCast, htarget]
  dsimp only
  rw [hdecrease]
  dsimp only
  rw [pow_zero, Nat.mul_one] at hround
  rw [hround]
  simp

/-- What a normal number is written as. -/
theorem Normal.pack_eq {m : ℕ} (h : Normal m) {e : ℤ} {b : ℕ} (hb : e + 150 = b)
    (hb₂ : b ≤ 254) : UnpackedFloat.pack .binary32 (.finite .positive m e h.pos) =
      packComponents .binary32 .positive (BitVec.ofNat 8 b) (BitVec.ofNat 23 m) := by
  have hlog : m.log2 + 1 = Format.binary32.mantissaBits := by
    have := h.log2_mul 0
    rw [pow_zero, Nat.mul_one] at this
    rw [this]
    rfl
  have hexp : (e + (Format.binary32.exponentBias : ℤ) +
      (Format.binary32.mantissaBitsWithoutImplicit : ℤ)).toNat = b := by
    show (e + (127 : ℤ) + 23).toNat = b
    omega
  unfold UnpackedFloat.pack
  dsimp only
  rw [hexp, if_neg (by show ¬256 ≤ b + 1; omega), if_pos hlog]

theorem toNat_packComponents (b : BitVec 8) (t : BitVec 23) :
    (packComponents .binary32 .positive b t).toNat = b.toNat * 2 ^ 23 + t.toNat := by
  show (0#1 ++ b ++ t).toNat = _
  rw [BitVec.toNat_append, BitVec.toNat_append, show (0#1).toNat = 0 from rfl, Nat.zero_shiftLeft,
    Nat.zero_or, ← Nat.shiftLeft_add_eq_or_of_lt t.isLt, Nat.shiftLeft_eq]

theorem unpackSign_packComponents (b : BitVec 8) (t : BitVec 23) :
    unpackSign (packComponents .binary32 .positive b t) = 0#1 := by
  show (0#1 ++ b ++ t).extractLsb' 31 1 = 0#1
  rw [BitVec.extractLsb'_append_eq_of_le (by decide), BitVec.extractLsb'_append_eq_of_le (by decide)]
  rfl

theorem Normal.toNat_pack {m : ℕ} (h : Normal m) {e : ℤ} {b : ℕ} (hb : e + 150 = b) (hb₁ : 1 ≤ b)
    (hb₂ : b ≤ 254) :
    (UnpackedFloat.pack .binary32 (.finite .positive m e h.pos)).toNat = (b - 1) * 2 ^ 23 + m := by
  have hle := h.le
  have hlt := h.lt
  rw [h.pack_eq hb hb₂, toNat_packComponents, BitVec.toNat_ofNat, BitVec.toNat_ofNat]
  omega

/-- What was written is read. -/
theorem Normal.unpack_pack {m : ℕ} (h : Normal m) {e : ℤ} {b : ℕ} (hb : e + 150 = b) (hb₁ : 1 ≤ b)
    (hb₂ : b ≤ 254) :
    UnpackedFloat.unpack .binary32 (UnpackedFloat.pack .binary32 (.finite .positive m e h.pos)) =
      .finite .positive m e h.pos := by
  have hle := h.le
  have hlt := h.lt
  have hbiased : (BitVec.ofNat 8 b).toNat = b := by
    rw [BitVec.toNat_ofNat]
    omega
  have hones : BitVec.ofNat 8 b ≠ -1#8 := by
    intro heq
    rw [heq] at hbiased
    have : (-1#8).toNat = 255 := rfl
    omega
  have hzero : BitVec.ofNat 8 b ≠ 0#8 := by
    intro heq
    rw [heq] at hbiased
    have : (0#8).toNat = 0 := rfl
    omega
  have hm : (1#1 ++ BitVec.ofNat 23 m).toNat = m := by
    rw [BitVec.toNat_append, ← Nat.shiftLeft_add_eq_or_of_lt (BitVec.isLt _), BitVec.toNat_ofNat,
      BitVec.toNat_ofNat, Nat.shiftLeft_eq]
    omega
  have hexp : ((BitVec.ofNat 8 b).toNat : ℤ) - (Format.binary32.exponentBias +
      Format.binary32.mantissaBitsWithoutImplicit) = e := by
    rw [hbiased]
    show (b : ℤ) - (127 + 23) = e
    omega
  rw [h.pack_eq hb hb₂]
  unfold UnpackedFloat.unpack
  simp only [unpackMantissa_packComponents, unpackExponent_packComponents,
    unpackSign_packComponents]
  rw [if_neg hones, if_neg hzero, UnpackedFloat.finite.injEq]
  exact ⟨rfl, hm, hexp⟩

/-- A natural number, and a power of two times it. -/
theorem toBits_mul_toFloat32 {c : Float32} {e : ℤ}
    (hc : c.toModel.unpack = .finite .positive (2 ^ 23) e (by decide)) {v : UInt32}
    (hpos : 0 < v.toNat) (hlt : v.toNat < 2 ^ 24) {b : ℕ} (hb : e + v.toNat.log2 + 150 = b)
    (hb₁ : 1 ≤ b) (hb₂ : b ≤ 254) :
    (c * v.toFloat32).toBits.toNat = (b - 1) * 2 ^ 23 + v.toNat * 2 ^ (23 - v.toNat.log2) := by
  have hnormal := normal_of_log2 hpos hlt
  have hlog : v.toNat.log2 < 24 := (Nat.log2_lt hpos.ne').mpr hlt
  have hv : v.toFloat32.toModel.unpack = .finite .positive (v.toNat * 2 ^ (23 - v.toNat.log2))
      (v.toNat.log2 - 23) hnormal.pos := by
    show UnpackedFloat.unpack .binary32 (UnpackedFloat.pack .binary32
      (UnpackedFloat.ofNat .binary32 v.toNat)) = _
    rw [ofNat_eq hpos hlt]
    exact hnormal.unpack_pack (b := v.toNat.log2 + 127) (by omega) (by omega) (by omega)
  have hmul : UnpackedFloat.mul .binary32 c.toModel.unpack v.toFloat32.toModel.unpack =
      .finite .positive (v.toNat * 2 ^ (23 - v.toNat.log2)) (e + v.toNat.log2) hnormal.pos := by
    rw [hc, hv]
    show UnpackedFloat.roundWithAccuracy .binary32 .positive _ _ .exact = _
    rw [Nat.mul_comm (2 ^ 23), hnormal.roundWithAccuracy .positive 23 (by omega),
      UnpackedFloat.finite.injEq]
    exact ⟨rfl, rfl, by omega⟩
  show (UnpackedFloat.pack .binary32
    (UnpackedFloat.mul .binary32 c.toModel.unpack v.toFloat32.toModel.unpack)).toNat = _
  rw [hmul]
  exact hnormal.toNat_pack hb hb₁ hb₂

/-! ### Products with one

Reading a pattern and writing what was read gives the pattern back, since there is one pattern
only that is no number; and a finite number that is read is canonical.  So a product with one
is the number it is made with. -/

/-- A number is made of its fields. -/
theorem packComponents_unpack (b : BitVec (Format.numBits .binary32)) :
    packComponents .binary32 (Sign.ofBitVec (unpackSign b)) (unpackExponent b)
      (unpackMantissa b) = b := by
  have hsign : (Sign.ofBitVec (unpackSign b)).toBitVec = unpackSign b := by
    rcases BitVec.eq_zero_or_eq_one (unpackSign b) with h | h <;> rw [h] <;> rfl
  unfold packComponents
  rw [hsign]
  ext i hi
  simp only [unpackSign, unpackMantissa, unpackExponent]
  grind

/-- What is read of a finite number is canonical. -/
theorem canonical_unpack {b : BitVec (Format.numBits .binary32)} {s : Sign} {m : ℕ} {e : ℤ}
    {hm : 0 < m} (h : UnpackedFloat.unpack .binary32 b = .finite s m e hm) : Canonical m e := by
  have hfraction : (unpackMantissa b).toNat < 2 ^ 23 := (unpackMantissa b).isLt
  unfold UnpackedFloat.unpack at h
  simp only at h
  split at h
  · split at h <;> cases h
  · rename_i hones
    split at h
    · rename_i hzero
      split at h
      · cases h
      · rename_i hne
        rw [UnpackedFloat.finite.injEq] at h
        obtain ⟨-, rfl, rfl⟩ := h
        refine ⟨hm, by omega, ?_, .inr ?_⟩
        · rw [hzero]; decide
        · rw [hzero]; decide
    · rename_i hzero
      rw [UnpackedFloat.finite.injEq] at h
      obtain ⟨-, rfl, rfl⟩ := h
      have hpos : (unpackExponent b).toNat ≠ 0 := fun h0 => hzero (BitVec.eq_of_toNat_eq h0)
      have hsig : (1#1 ++ unpackMantissa b).toNat = 2 ^ 23 + (unpackMantissa b).toNat := by
        rw [BitVec.toNat_append, ← Nat.shiftLeft_add_eq_or_of_lt (BitVec.isLt _)]
        rfl
      refine ⟨hm, ?_, ?_, .inl ?_⟩
      · rw [hsig]
        omega
      · show -149 ≤ ((unpackExponent b).toNat : ℤ) - (127 + 23)
        omega
      · rw [hsig]
        omega

/-- Multiplying by one or by its negative changes no more than the sign. -/
theorem mul_one_unpack (b : BitVec (Format.numBits .binary32)) (s : Sign) :
    UnpackedFloat.mul .binary32 (.finite s (2 ^ 23) (-23) (by decide))
        (UnpackedFloat.unpack .binary32 b) =
      match s with
      | .positive => UnpackedFloat.unpack .binary32 b
      | .negative => (UnpackedFloat.unpack .binary32 b).neg := by
  cases hb : UnpackedFloat.unpack .binary32 b with
  | infinity t | zero t => cases s <;> cases t <;> rfl
  | notANumber => cases s <;> rfl
  | finite t m e hm =>
      have hround := (canonical_unpack hb).roundWithAccuracy (s * t) 23
      have hmul : UnpackedFloat.mul .binary32 (.finite s (2 ^ 23) (-23) (by decide))
          (.finite t m e hm) = .finite (s * t) m e hm := by
        rw [← hround]
        show UnpackedFloat.roundWithAccuracy .binary32 (s * t) (2 ^ 23 * m) (-23 + e) .exact = _
        rw [Nat.mul_comm, show -23 + e = e - ((23 : ℕ) : ℤ) by omega]
      rw [hmul]
      cases s <;> cases t <;> rfl

/-- What was read is written. -/
theorem pack_unpack {b : BitVec (Format.numBits .binary32)} (hb : Format.binary32.Valid b) :
    UnpackedFloat.pack .binary32 (UnpackedFloat.unpack .binary32 b) = b := by
  have hparts := packComponents_unpack b
  have hfraction : (unpackMantissa b).toNat < 2 ^ 23 := (unpackMantissa b).isLt
  have hbiased : (unpackExponent b).toNat < 2 ^ 8 := (unpackExponent b).isLt
  unfold UnpackedFloat.unpack
  simp only
  split
  · rename_i hones
    split
    · rename_i hzero
      rw [hones, hzero] at hparts
      exact hparts
    · rename_i hne
      exact (hb.eq_packedNaN hones hne).symm
  · rename_i hones
    have hlt : (unpackExponent b).toNat ≠ 255 := fun h => hones (BitVec.eq_of_toNat_eq h)
    split
    · rename_i hexp
      rw [hexp] at hparts
      split
      · rename_i hzero
        rw [hzero] at hparts
        exact hparts
      · rename_i hne
        have hlog : (unpackMantissa b).toNat.log2 < 23 :=
          (Nat.log2_lt fun h0 => hne (BitVec.eq_of_toNat_eq h0)).mpr hfraction
        unfold UnpackedFloat.pack
        simp only [hexp]
        rw [if_neg (by decide), if_neg (by show ¬(_ + 1 = 24); omega), BitVec.ofNat_toNat,
          BitVec.setWidth_eq]
        exact hparts
    · rename_i hexp
      have hsig : (1#1 ++ unpackMantissa b).toNat = 2 ^ 23 + (unpackMantissa b).toNat := by
        rw [BitVec.toNat_append, ← Nat.shiftLeft_add_eq_or_of_lt (BitVec.isLt _)]
        rfl
      have hlog : (1#1 ++ unpackMantissa b).toNat.log2 = 23 := by
        rw [hsig, Nat.log2_eq_iff (by omega)]
        omega
      have hback : (((unpackExponent b).toNat : ℤ) - (Format.binary32.exponentBias +
          Format.binary32.mantissaBitsWithoutImplicit) + Format.binary32.exponentBias +
          Format.binary32.mantissaBitsWithoutImplicit).toNat = (unpackExponent b).toNat := by
        omega
      unfold UnpackedFloat.pack
      simp only [hback, hlog]
      rw [if_neg (by show ¬(256 ≤ _ + 1); omega),
        if_pos (show 23 + 1 = Format.binary32.mantissaBits from rfl), BitVec.ofNat_toNat,
        BitVec.setWidth_eq, BitVec.ofNat_toNat]
      have hlow : (1#1 ++ unpackMantissa b).setWidth 23 = unpackMantissa b := by
        apply BitVec.eq_of_toNat_eq
        rw [BitVec.toNat_setWidth, hsig]
        omega
      rw [hlow]
      exact hparts

theorem unpack_one : (Float32.ofInt 1).toModel.unpack = .finite .positive (2 ^ 23) (-23) (by decide) := by
  have h : (Float32.ofInt 1).toModel.toBits = 0x3F800000 := by decide +kernel
  unfold Float32.Model.unpack
  rw [h]
  rfl

theorem unpack_neg_one :
    (Float32.ofInt (-1)).toModel.unpack = .finite .negative (2 ^ 23) (-23) (by decide) := by
  have h : (Float32.ofInt (-1)).toModel.toBits = 0xBF800000 := by decide +kernel
  unfold Float32.Model.unpack
  rw [h]
  rfl

theorem ofInt_one_mul (x : Float32) : Float32.ofInt 1 * x = x := by
  obtain ⟨⟨b, hb⟩⟩ := x
  have hmul := mul_one_unpack b.toBitVec .positive
  show Float32.ofModel (.pack (UnpackedFloat.mul .binary32 (Float32.ofInt 1).toModel.unpack _)) = _
  rw [unpack_one]
  show Float32.ofModel (.pack (UnpackedFloat.mul .binary32 _ (UnpackedFloat.unpack .binary32 b.toBitVec))) = _
  rw [hmul]
  unfold Float32.Model.pack
  simp only [pack_unpack hb]

theorem ofInt_neg_one_mul (x : Float32) : Float32.ofInt (-1) * x = -x := by
  obtain ⟨⟨b, hb⟩⟩ := x
  have hmul := mul_one_unpack b.toBitVec .negative
  show Float32.ofModel (.pack (UnpackedFloat.mul .binary32 (Float32.ofInt (-1)).toModel.unpack _)) = _
  rw [unpack_neg_one]
  show Float32.ofModel (.pack (UnpackedFloat.mul .binary32 _ (UnpackedFloat.unpack .binary32 b.toBitVec))) = _
  rw [hmul]
  rfl

end FloatModel
