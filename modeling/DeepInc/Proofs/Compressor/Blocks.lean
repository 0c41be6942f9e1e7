/-
How many words `BitWriter` counts.

The trailer of a compressed tensor is placed by `blocks()`, behind the words the stream of bits
takes.  `Put` and `Flush` write as many words as the bits take, but `blocks()` does not count
them: it divides the number of bits by the bits of a word, as a `float`, and rounds up.

Up to `2 ^ 24` bits nothing is rounded before the division, which itself is exact.  From there
on the number of bits becomes a multiple of the distance between two `float`s, and the words it
takes are the same only if no word of the stream is rounded away and none is added.  `WordsKept`
says just that, in terms of the number of bits and of their words, and `countsWords_iff` that it
is the condition for `blocks()` to be right.

It fails for the first time one bit behind `2 ^ 24`: that bit has a word of its own, which is
not counted, and is overwritten by the trailer.
-/
import DeepInc.Proofs.Compressor.BitStream
import Mathlib.Algebra.Order.Field.Basic
import Mathlib.Algebra.Order.Floor.Semiring
import Mathlib.Data.Rat.Floor

namespace DeepInc.Compressor

open Ieee (divEven divEven_le spacing spacing_pos)

namespace BitWriter

/-! ### The quotient, in `float` -/

section CeilFloat

theorem ceilFloat_mono (w : ℕ) {m n : ℕ} (h : m ≤ n) : ceilFloat w m ≤ ceilFloat w n := by
  have hround : ∀ {x y : ℚ}, 0 ≤ x → x ≤ y → Ieee.single x ≤ Ieee.single y :=
    fun hx hxy => Ieee.round_mono (by decide) hx hxy
  have hnonneg : ∀ k : ℕ, 0 ≤ Ieee.single k := fun k => by
    have := hround le_rfl (Nat.cast_nonneg k)
    rwa [Ieee.single, Ieee.round_zero] at this
  refine Nat.ceil_mono (hround (div_nonneg (hnonneg m) (hnonneg w)) ?_)
  exact div_le_div_of_nonneg_right (hround (Nat.cast_nonneg m) (Nat.cast_le.mpr h)) (hnonneg w)

/-- The words so many bits take. -/
theorem natCeil_div (n : ℕ) {w : ℕ} (hw : 0 < w) : ⌈(n : ℚ) / w⌉₊ = (n + (w - 1)) / w := by
  have hpos : (0 : ℚ) < w := Nat.cast_pos.mpr hw
  refine eq_of_forall_ge_iff fun c => ?_
  rw [Nat.ceil_le, div_le_iff₀ hpos, ← Nat.cast_mul, Nat.cast_le,
    Nat.div_le_iff_le_mul_add_pred hw, Nat.mul_comm c]
  omega

/-- The number of bits is rounded, the division by the bits of a word is exact. -/
theorem ceilFloat_two_pow {k : ℕ} (hk : k < 24) (n : ℕ) :
    ceilFloat (2 ^ k) n = (divEven n (spacing 24 n) * spacing 24 n + (2 ^ k - 1)) / 2 ^ k := by
  have hword : Ieee.single ((2 ^ k : ℕ) : ℚ) = ((2 ^ k : ℕ) : ℚ) := by
    have := Ieee.round_natCast_mul_zpow (Nat.pow_lt_pow_right (a := 2) (by decide) hk) 0
    rwa [zpow_zero, mul_one] at this
  have hbits : Ieee.single n = ((divEven n (spacing 24 n) * spacing 24 n : ℕ) : ℚ) :=
    Ieee.round_natCast (by decide) n
  have hquotient := Ieee.round_divEven_mul_zpow (p := 24) (by decide) n (-(k : ℤ))
  have hpower : (2 : ℚ) ^ (-(k : ℤ)) = (((2 ^ k : ℕ) : ℚ))⁻¹ := by
    rw [zpow_neg, zpow_natCast, Nat.cast_pow, Nat.cast_ofNat]
  rw [hpower, ← div_eq_mul_inv] at hquotient
  unfold ceilFloat
  rw [hword, hbits]
  unfold Ieee.single
  rw [hquotient, natCeil_div _ (Nat.two_pow_pos k)]

end CeilFloat

/-! ### When it is the number of words

The words of a `float` are rounded up twice, once to the `float` and once to words.  Both are
multiples of powers of two; which of the two is the coarser decides whether a word can be lost
or only be added.
-/

/-- The words of `n` bits are those of the `float` next to `n`; words have `w` bits. -/
def WordsKept (w n : ℕ) : Prop :=
  let g := spacing 24 n
  let r := n % g
  if g ≤ w then r = 0 ∨ g < 2 * r ∨ (2 * r = g ∧ n / g % 2 = 1) ∨ g ≤ n % w
  else r = 0 ∨ g < r + w

instance (w n : ℕ) : Decidable (WordsKept w n) := by
  unfold WordsKept
  exact inferInstance

section Arithmetic

variable {n g c : ℕ}

/-- Rounding up to words, by way of a part of them. -/
theorem ceil_mul (n : ℕ) (hg : 0 < g) (hc : 0 < c) :
    (n + (g * c - 1)) / (g * c) = ((n + (g - 1)) / g + (c - 1)) / c := by
  have hwhole : n + (g * c - 1) = n + (g - 1) + g * (c - 1) := by
    have hle : g * 1 ≤ g * c := Nat.mul_le_mul_left g hc
    rw [Nat.mul_sub]
    omega
  rw [← Nat.div_div_eq_div_mul, hwhole, Nat.add_mul_div_left _ _ hg]

theorem ceil_mul_self (m : ℕ) (hg : 0 < g) : (m * g + (g - 1)) / g = m := by
  rw [Nat.mul_comm, Nat.mul_add_div hg, Nat.div_eq_of_lt (by omega), Nat.add_zero]

theorem ceil_eq (n : ℕ) (hg : 0 < g) :
    (n + (g - 1)) / g = n / g + if n % g = 0 then 0 else 1 := by
  conv_lhs => rw [← Nat.div_add_mod n g, Nat.add_assoc, Nat.mul_add_div hg]
  have hlt := Nat.mod_lt n hg
  congr 1
  split
  · exact Nat.div_eq_of_lt (by omega)
  · exact Nat.div_eq_of_lt_le (by omega) (by omega)

/-- One more takes a word of its own behind full words only. -/
theorem ceil_succ_eq_iff (m : ℕ) (hc : 0 < c) :
    (m + (c - 1)) / c = (m + 1 + (c - 1)) / c ↔ m % c ≠ 0 := by
  have hlt := Nat.mod_lt m hc
  rw [show m + 1 + (c - 1) = m + c by omega, Nat.add_div_right _ hc, ceil_eq m hc]
  split <;> omega

/-- The distance of the `float`s divides the words. -/
theorem divEven_words_iff (hg : 0 < g) (hc : 0 < c) :
    (divEven n g * g + (g * c - 1)) / (g * c) = (n + (g * c - 1)) / (g * c) ↔
      n % g = 0 ∨ g < 2 * (n % g) ∨ (2 * (n % g) = g ∧ n / g % 2 = 1) ∨ g ≤ n % (g * c) := by
  have hlast : g ≤ n % (g * c) ↔ n / g % c ≠ 0 := by
    have hlt := Nat.mod_lt n hg
    rw [Nat.mod_mul]
    constructor
    · intro h hzero
      rw [hzero] at h
      omega
    · intro h
      have hmul : g * 1 ≤ g * (n / g % c) := Nat.mul_le_mul_left g (Nat.pos_of_ne_zero h)
      omega
  rw [ceil_mul _ hg hc, ceil_mul _ hg hc, ceil_mul_self _ hg, ceil_eq n hg, hlast]
  have hstep := ceil_succ_eq_iff (n / g) hc
  unfold divEven
  by_cases hzero : n % g = 0
  · rw [hzero, if_pos (by omega), if_pos rfl]
    exact iff_of_true rfl (.inl rfl)
  · rw [if_neg hzero]
    by_cases hless : 2 * (n % g) < g
    · rw [if_pos hless, hstep]
      omega
    · rw [if_neg hless]
      by_cases hgreater : g < 2 * (n % g)
      · rw [if_pos hgreater]
        exact iff_of_true rfl (.inr (.inl hgreater))
      · rw [if_neg hgreater]
        rcases Nat.mod_two_eq_zero_or_one (n / g) with heven | hodd
        · rw [heven, Nat.add_zero, hstep]
          omega
        · rw [hodd]
          exact iff_of_true rfl (.inr (.inr (.inl ⟨by omega, rfl⟩)))

/-- The words divide the distance of the `float`s. -/
theorem divEven_mul_words_iff {w d : ℕ} (hw : 0 < w) (hd : 2 ≤ d) :
    (divEven n (w * d) * (w * d) + (w - 1)) / w = (n + (w - 1)) / w ↔
      n % (w * d) = 0 ∨ w * d < n % (w * d) + w := by
  have hdouble : w * 2 ≤ w * d := Nat.mul_le_mul_left w hd
  have hlt := Nat.mod_lt n (show 0 < w * d by omega)
  obtain ⟨q, hq⟩ : ∃ q, n / (w * d) = q := ⟨_, rfl⟩
  obtain ⟨r, hr⟩ : ∃ r, n % (w * d) = r := ⟨_, rfl⟩
  have hn : n = w * (d * q) + r := by
    rw [← hq, ← hr, ← Nat.mul_assoc, Nat.div_add_mod]
  have hwords : (n + (w - 1)) / w = d * q + (r + (w - 1)) / w := by
    rw [hn, Nat.add_assoc, Nat.mul_add_div hw]
  have hfloat : ∀ m, (m * (w * d) + (w - 1)) / w = d * m := fun m => by
    rw [show m * (w * d) = d * m * w by ring, ceil_mul_self _ hw]
  rw [hr] at hlt ⊢
  rw [hwords, hfloat]
  have hnone : (r + (w - 1)) / w = 0 ↔ r = 0 := by
    rw [Nat.div_eq_zero_iff]
    omega
  have hall : (r + (w - 1)) / w = d ↔ w * d < r + w := by
    constructor
    · intro h
      have hle := Nat.div_mul_le_self (r + (w - 1)) w
      rw [h, Nat.mul_comm] at hle
      omega
    · intro h
      refine Nat.div_eq_of_lt_le ?_ ?_
      · rw [Nat.mul_comm]
        omega
      · rw [Nat.succ_mul, Nat.mul_comm d]
        omega
  -- rounded down the rest takes no word, rounded up it takes all words up to the next `float`
  have hdown : d * q = d * q + (r + (w - 1)) / w ↔ r = 0 := by
    rw [← hnone]
    omega
  have hup : d * (q + 1) = d * q + (r + (w - 1)) / w ↔ w * d < r + w := by
    rw [← hall, Nat.mul_add, Nat.mul_one]
    omega
  unfold divEven
  rw [hq, hr]
  by_cases hless : 2 * r < w * d
  · rw [if_pos hless, hdown]
    omega
  · rw [if_neg hless]
    by_cases hgreater : w * d < 2 * r
    · rw [if_pos hgreater, hup]
      omega
    · rw [if_neg hgreater]
      rcases Nat.mod_two_eq_zero_or_one q with heven | hodd
      · rw [heven, Nat.add_zero, hdown]
        omega
      · rw [hodd, hup]
        omega

end Arithmetic

/-- **The quotient in `float` is right** when the words are kept. -/
theorem ceilFloat_eq_iff {k : ℕ} (hk : k < 24) (n : ℕ) :
    ceilFloat (2 ^ k) n = ⌈(n : ℚ) / ((2 ^ k : ℕ) : ℚ)⌉₊ ↔ WordsKept (2 ^ k) n := by
  have hpos := Nat.two_pow_pos k
  obtain ⟨e, he⟩ : ∃ e, spacing 24 n = 2 ^ e := ⟨_, rfl⟩
  rw [ceilFloat_two_pow hk, natCeil_div n hpos]
  unfold WordsKept
  simp only [he]
  by_cases hle : e ≤ k
  · have hwords : 2 ^ k = 2 ^ e * 2 ^ (k - e) := by rw [← Nat.pow_add, Nat.add_sub_cancel' hle]
    rw [if_pos (Nat.pow_le_pow_right Nat.two_pos hle), hwords]
    exact divEven_words_iff (Nat.two_pow_pos e) (Nat.two_pow_pos _)
  · have hdistance : 2 ^ e = 2 ^ k * 2 ^ (e - k) := by rw [← Nat.pow_add]; congr 1; omega
    have hlt : 2 ^ k < 2 ^ e := Nat.pow_lt_pow_right Nat.one_lt_two (by omega)
    rw [if_neg (by omega), hdistance]
    exact divEven_mul_words_iff hpos (Nat.pow_le_pow_right Nat.two_pos (show 1 ≤ e - k by omega))

/-- Up to `2 ^ 24` bits nothing is rounded. -/
theorem wordsKept_of_lt {k n : ℕ} (hn : n < 2 ^ 24) : WordsKept (2 ^ k) n := by
  have hspacing : spacing 24 n = 1 := Ieee.spacing_of_lt (by decide) hn
  unfold WordsKept
  simp only [hspacing]
  rw [if_pos (show 1 ≤ 2 ^ k from Nat.two_pow_pos k)]
  exact .inl (Nat.mod_one n)

theorem ceilFloat_eq (dtype : DataType) (hdtype : Compressible dtype) {n : ℕ} (hn : n < 2 ^ 24) :
    ceilFloat (scalarBits dtype) n = (n + (scalarBits dtype - 1)) / scalarBits dtype := by
  obtain ⟨k, hk, hw⟩ : ∃ k < 24, scalarBits dtype = 2 ^ k := by
    cases dtype with
    | float16 => exact ⟨4, by decide, rfl⟩
    | float32 => exact ⟨5, by decide, rfl⟩
    | float64 => exact ⟨6, by decide, rfl⟩
    | _ => exact hdtype.elim
  rw [hw, (ceilFloat_eq_iff hk n).mpr (wordsKept_of_lt hn), natCeil_div n (Nat.two_pow_pos k)]

/-! ### The words that are written

To say that nothing else is overwritten, two writers are compared that were given the same bits
in different buffers.  Their buffers agree where words were written, and each is as it was
everywhere else.
-/

section Written

variable {w : ℕ} {K : Type}

/-- The words that are stored are those the bits take. -/
theorem words_eq {b : BitWriter w K} (hused : b.usedBits < w) :
    (if 0 < b.usedBits then b.blocks + 1 else b.blocks) = (b.bits + (w - 1)) / w := by
  unfold BitWriter.bits
  refine (Nat.div_eq_of_lt_le ?_ ?_).symm
  · split
    · rw [Nat.succ_mul]
      omega
    · omega
  · split
    · rw [Nat.succ_mul, Nat.succ_mul]
      omega
    · rw [Nat.succ_mul]
      omega

variable {data data' : Mem (Cell w K)} {b b' : BitWriter w K}

/--
Two writers that were given the same bits.  Their buffers hold the same up to the word that is
filled next, and what they held before from there on.
-/
structure Alike (data data' : Mem (Cell w K)) (b b' : BitWriter w K) : Prop where
  accum : b.accum = b'.accum
  usedBits : b.usedBits = b'.usedBits
  blocks : b.blocks = b'.blocks
  written : ∀ i < b.blocks, b.data i = b'.data i
  kept : ∀ i, b.blocks ≤ i → b.data i = data i

theorem alike_new (data data' : Mem (Cell w K)) :
    Alike data data' (new data) (new data') :=
  ⟨rfl, rfl, rfl, fun _ hi => absurd hi (Nat.not_lt_zero _), fun _ _ => rfl⟩

variable [Zero K]

theorem Alike.put (h : Alike data data' b b') (x : Bool) :
    Alike data data' (b.put x) (b'.put x) := by
  unfold BitWriter.put
  rw [← h.accum, ← h.usedBits, ← h.blocks]
  by_cases hfull : b.usedBits + 1 = w
  · simp only [if_pos hfull]
    refine ⟨rfl, rfl, rfl, fun i hi => ?_, fun i hi => ?_⟩
    · rcases Nat.lt_succ_iff_lt_or_eq.mp hi with hlt | rfl
      · simp only
        rw [Function.update_of_ne hlt.ne, Function.update_of_ne hlt.ne, h.written i hlt]
      · simp
    · simp only at hi ⊢
      rw [Function.update_of_ne (show i ≠ b.blocks by omega), h.kept i (by omega)]
  · simp only [if_neg hfull]
    exact ⟨rfl, rfl, rfl, h.written, h.kept⟩

theorem Alike.putAll (h : Alike data data' b b') (l : List Bool) :
    Alike data data' (b.putAll l) (b'.putAll l) := by
  induction l generalizing b b' with
  | nil => exact h
  | cons x l ih => exact ih (h.put x)

/--
`n` words are written: they do not depend on what was in the buffer, and every other word keeps
what it holds.
-/
structure WritesWords (w : ℕ) (K : Type) [Zero K] (l : List Bool) (n : ℕ) : Prop where
  written : ∀ (data data' : Mem (Cell w K)), ∀ i < n,
    ((new data).putAll l).flush.data i = ((new data').putAll l).flush.data i
  kept : ∀ (data : Mem (Cell w K)) (i : ℕ), n ≤ i → ((new data).putAll l).flush.data i = data i

/-- `Put` and `Flush` write the words the bits take. -/
theorem writesWords (hw : 0 < w) (l : List Bool) :
    WritesWords w K l ((l.length + (w - 1)) / w) := by
  have hwords : ∀ data : Mem (Cell w K),
      (if 0 < ((new data).putAll l).usedBits then ((new data).putAll l).blocks + 1
        else ((new data).putAll l).blocks) = (l.length + (w - 1)) / w := fun data => by
    have hwrote := (wrote_new hw data).putAll l
    rw [words_eq hwrote.usedBits_lt, hwrote.bits, List.nil_append]
  constructor
  · intro data data' i hi
    have halike := (alike_new data data').putAll l
    rw [← hwords data] at hi
    unfold BitWriter.flush
    rw [← halike.accum, ← halike.usedBits, ← halike.blocks]
    split at hi
    · rename_i hused
      rw [if_pos hused, if_pos hused]
      simp only
      rcases Nat.lt_succ_iff_lt_or_eq.mp hi with hlt | rfl
      · rw [Function.update_of_ne hlt.ne, Function.update_of_ne hlt.ne, halike.written i hlt]
      · rw [Function.update_self, Function.update_self]
    · rename_i hused
      rw [if_neg hused, if_neg hused]
      exact halike.written i hi
  · intro data i hi
    have halike := (alike_new data data).putAll l
    rw [← hwords data] at hi
    unfold BitWriter.flush
    split at hi
    · rename_i hused
      rw [if_pos hused]
      simp only
      rw [Function.update_of_ne (by omega), halike.kept i (by omega)]
    · rename_i hused
      rw [if_neg hused]
      exact halike.kept i hi

end Written

/-! ### What `blocks()` is after `Flush` -/

/-- The `T` of a `BitWriter<T>`. -/
inductive WordType
  | uint16
  | uint32
  | uint64
  deriving DecidableEq, Repr

/-- `PACKING_SIZE` -/
def WordType.packingSize : WordType → ℕ
  | uint16 => 16
  | uint32 => 32
  | uint64 => 64

/--
What is asked of `blocks()` after the bits `l` and `Flush`: it is the number of words the bits take,
and of those that were written, so that what is placed behind it is right behind the bits.
-/
structure CountsWords (w : ℕ) (K : Type) [Zero K] (l : List Bool) : Prop where
  bits : ∀ data : Mem (Cell w K), ((new data).putAll l).flush.bits = l.length
  blocks : ∀ data : Mem (Cell w K),
    ((new data).putAll l).flush.numBlocksFloat = ⌈(l.length : ℚ) / w⌉₊
  words : ∀ data : Mem (Cell w K), WritesWords w K l ((new data).putAll l).flush.numBlocksFloat

theorem countsWords_two_pow {K : Type} [Zero K] {k : ℕ} (hk : k < 24) (l : List Bool) :
    CountsWords (2 ^ k) K l ↔ WordsKept (2 ^ k) l.length := by
  rw [← ceilFloat_eq_iff hk]
  have hpos := Nat.two_pow_pos k
  have hbits : ∀ data : Mem (Cell (2 ^ k) K), ((new data).putAll l).flush.bits = l.length :=
    fun data => by
      rw [flush_bits, ((wrote_new hpos data).putAll l).bits, List.nil_append]
  have hblocks : ∀ data : Mem (Cell (2 ^ k) K),
      ((new data).putAll l).flush.numBlocksFloat = ceilFloat (2 ^ k) l.length := fun data =>
    congrArg (ceilFloat (2 ^ k)) (hbits data)
  constructor
  · intro h
    have hcounted := h.blocks fun _ => (0, 0)
    rwa [hblocks] at hcounted
  · intro h
    refine ⟨hbits, fun data => (hblocks data).trans h, fun data => ?_⟩
    rw [hblocks, h, natCeil_div _ hpos]
    exact writesWords hpos l

theorem WordType.exists_packingSize (T : WordType) : ∃ k < 24, T.packingSize = 2 ^ k := by
  cases T with
  | uint16 => exact ⟨4, by decide, rfl⟩
  | uint32 => exact ⟨5, by decide, rfl⟩
  | uint64 => exact ⟨6, by decide, rfl⟩

/-- Up to `2 ^ 24` bits `blocks()` is right. -/
theorem countsWords_of_lt {K : Type} [Zero K] (T : WordType) {l : List Bool}
    (hl : l.length < 2 ^ 24) : CountsWords T.packingSize K l := by
  obtain ⟨k, hk, hw⟩ := T.exists_packingSize
  rw [hw, countsWords_two_pow hk]
  exact wordsKept_of_lt hl

/--
**`blocks()` is right when the words are kept**: always up to `2 ^ 24` bits, and from there on when
the last word is neither lost nor followed by others once the number of bits is a `float`.
-/
theorem countsWords_iff {K : Type} [Zero K] (T : WordType) (l : List Bool) :
    CountsWords T.packingSize K l ↔ WordsKept T.packingSize l.length := by
  obtain ⟨k, hk, hw⟩ := T.exists_packingSize
  rw [hw]
  exact countsWords_two_pow hk l

/-- One bit more than `2 ^ 24`: its word is not counted. -/
theorem long_stream_is_cut :
    ¬CountsWords 32 ℚ (List.replicate (2 ^ 24 + 1) true) := by
  obtain ⟨l, hl, hlength⟩ : ∃ l : List Bool, List.replicate (2 ^ 24 + 1) true = l ∧
      l.length = 2 ^ 24 + 1 := ⟨_, rfl, List.length_replicate⟩
  rw [hl]
  intro h
  have hkept := (countsWords_two_pow (k := 5) (by decide) l).mp h
  rw [hlength] at hkept
  exact absurd hkept (by decide)

end BitWriter

end DeepInc.Compressor
