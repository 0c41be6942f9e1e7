/-
The Elias delta code.

A positive number is written as the zeros that count the digits of its own digit count,
that count in binary, and the number in binary without its leading one.  No code word is
the beginning of another, so that a reader can take one off a stream of bits without
knowing where it ends.

A reader is any type with a function that delivers the next bit and moves on; `Delivers`
says which bits come next.
-/
import Mathlib.Data.Nat.Log
import Mathlib.Data.Nat.Bitwise

namespace EliasDelta

/-! ### Binary digits -/

/-- The `n` low digits of `x`, the most significant one first. -/
def digits (x : ℕ) : ℕ → List Bool
  | 0 => []
  | n + 1 => x.testBit n :: digits x n

@[simp] theorem length_digits (x n : ℕ) : (digits x n).length = n := by
  induction n with
  | zero => rfl
  | succ n ih => simp [digits, ih]

/-- The number `acc` continued by the given digits. -/
def value (acc : ℕ) : List Bool → ℕ
  | [] => acc
  | b :: bs => value (2 * acc + b.toNat) bs

theorem shiftRight_succ_digit (x n : ℕ) : 2 * (x >>> (n + 1)) + (x.testBit n).toNat = x >>> n := by
  rw [Nat.shiftRight_succ, Nat.testBit_eq_decide_div_mod_eq, ← Nat.shiftRight_eq_div_pow]
  rcases Nat.mod_two_eq_zero_or_one (x >>> n) with h | h
  · simp only [h, Nat.zero_ne_one, decide_false, Bool.toNat_false]
    omega
  · simp only [h, decide_true, Bool.toNat_true]
    omega

/-- The high part of a number, continued by its low digits, is the number. -/
theorem value_digits (x n : ℕ) : value (x >>> n) (digits x n) = x := by
  induction n with
  | zero => rfl
  | succ n ih =>
      rw [digits, value, shiftRight_succ_digit]
      exact ih

/-- A positive number without its leading one. -/
theorem shiftRight_log2 {x : ℕ} (hx : x ≠ 0) : x >>> x.log2 = 1 := by
  rw [Nat.shiftRight_eq_div_pow]
  have hle := Nat.log2_self_le hx
  have hlt := Nat.lt_log2_self (n := x)
  rw [Nat.pow_succ] at hlt
  exact Nat.div_eq_of_lt_le (by omega) (by omega)

theorem testBit_log2 {x : ℕ} (hx : x ≠ 0) : x.testBit x.log2 = true := by
  rw [Nat.testBit_eq_decide_div_mod_eq, ← Nat.shiftRight_eq_div_pow, shiftRight_log2 hx]
  rfl

/-- A number is its leading one, continued. -/
theorem value_one_digits {x : ℕ} (hx : x ≠ 0) : value 1 (digits x x.log2) = x := by
  have h := value_digits x x.log2
  rwa [shiftRight_log2 hx] at h

/-! ### The code -/

/-- The code word of `x`. -/
def code (x : ℕ) : List Bool :=
  let len := x.log2 + 1
  List.replicate len.log2 false ++ digits len (len.log2 + 1) ++ digits x x.log2

/-- The digits of the digit count start with a one. -/
theorem code_eq (x : ℕ) : code x =
    (List.replicate (x.log2 + 1).log2 false ++ [true]) ++
      digits (x.log2 + 1) (x.log2 + 1).log2 ++ digits x x.log2 := by
  simp only [code, digits, testBit_log2 (Nat.succ_ne_zero _), List.append_assoc,
    List.cons_append, List.nil_append]

theorem length_code (x : ℕ) : (code x).length = 2 * (x.log2 + 1).log2 + 1 + x.log2 := by
  rw [code_eq]
  simp only [List.length_append, List.length_replicate, List.length_singleton, length_digits]
  omega

/-- A number has no longer code word than one with more digits. -/
theorem length_code_lt {x y : ℕ} (h : x.log2 < y.log2) : (code x).length < (code y).length := by
  have hlen : (x.log2 + 1).log2 ≤ (y.log2 + 1).log2 :=
    (Nat.le_log2 (Nat.succ_ne_zero _)).mpr
      ((Nat.log2_self_le (Nat.succ_ne_zero _)).trans (by omega))
  rw [length_code, length_code]
  omega

theorem code_ne_nil (x : ℕ) : code x ≠ [] := by
  rw [code_eq]
  simp

/-! ### Reading

A reader may fail to deliver a bit.  `Delivers` says that it does not, for so many bits, and
which bits they are: reading a code word is then a matter of the bits alone, and whoever knows
what a reader delivers need not look into it again.
-/

section Reader

variable {ρ ε : Type} (get : ρ → Except ε (Bool × ρ))

/-- The reader delivers the given bits next, and then is `r'`. -/
inductive Delivers : ρ → List Bool → ρ → Prop
  | nil (r : ρ) : Delivers r [] r
  | cons {r r₁ r' : ρ} {b : Bool} {bs : List Bool} (hb : get r = .ok (b, r₁))
      (h : Delivers r₁ bs r') : Delivers r (b :: bs) r'

/-- The zeros up to the next one, which is read as well; with `fuel` of them it is `tooLong`. -/
def readZeros (tooLong : ε) : ℕ → ρ → ℕ → Except ε (ℕ × ρ)
  | 0, _, _ => .error tooLong
  | fuel + 1, r, n => do
    let (b, r) ← get r
    if b then .ok (n, r) else readZeros tooLong fuel r (n + 1)

/-- The number `acc`, continued by the next `n` bits. -/
def readDigits : ℕ → ρ → ℕ → Except ε (ℕ × ρ)
  | 0, r, acc => .ok (acc, r)
  | n + 1, r, acc => do
    let (b, r) ← get r
    readDigits n r (2 * acc + b.toNat)

/-- A code word, whose digit count has at most `fuel` digits. -/
def read (tooLong : ε) (fuel : ℕ) (r : ρ) : Except ε (ℕ × ρ) := do
  let (lengthOfLen, r) ← readZeros get tooLong fuel r 0
  let (len, r) ← readDigits get lengthOfLen r 1
  readDigits get (len - 1) r 1

variable {get} {tooLong : ε} {r r' r₁ r₂ : ρ}

theorem Delivers.append {as bs : List Bool} (h₁ : Delivers get r as r₁)
    (h₂ : Delivers get r₁ bs r₂) : Delivers get r (as ++ bs) r₂ := by
  induction h₁ with
  | nil r => exact h₂
  | cons hb _ ih => exact .cons hb (ih h₂)

/-- What is delivered may be read in two parts. -/
theorem Delivers.split {as bs : List Bool} (h : Delivers get r (as ++ bs) r₂) :
    ∃ r₁, Delivers get r as r₁ ∧ Delivers get r₁ bs r₂ := by
  induction as generalizing r with
  | nil => exact ⟨r, .nil r, h⟩
  | cons a as ih =>
      cases h with
      | cons hb h =>
          obtain ⟨r₁, h₁, h₂⟩ := ih h
          exact ⟨r₁, .cons hb h₁, h₂⟩

theorem readZeros_of_delivers {n fuel k : ℕ} (hfuel : n < fuel)
    (h : Delivers get r (List.replicate n false ++ [true]) r') :
    readZeros get tooLong fuel r k = .ok (k + n, r') := by
  induction n generalizing r fuel k with
  | zero =>
      obtain ⟨fuel, rfl⟩ : ∃ f, fuel = f + 1 := ⟨fuel - 1, by omega⟩
      cases h with
      | cons hb h =>
          cases h
          rw [readZeros, hb]
          rfl
  | succ n ih =>
      obtain ⟨fuel, rfl⟩ : ∃ f, fuel = f + 1 := ⟨fuel - 1, by omega⟩
      rw [List.replicate_succ, List.cons_append] at h
      cases h with
      | cons hb h =>
          rw [readZeros, hb]
          exact (ih (by omega) h).trans (by rw [show k + 1 + n = k + (n + 1) by omega])

theorem readDigits_of_delivers {bs : List Bool} (acc : ℕ) (h : Delivers get r bs r') :
    readDigits get bs.length r acc = .ok (value acc bs, r') := by
  induction h generalizing acc with
  | nil r => rfl
  | cons hb _ ih =>
      rw [List.length_cons, readDigits, hb]
      exact ih _

/-- **A code word reads back as its number.** -/
theorem read_code {x fuel : ℕ} (hx : x ≠ 0) (hfuel : (x.log2 + 1).log2 < fuel)
    (h : Delivers get r (code x) r') : read get tooLong fuel r = .ok (x, r') := by
  rw [code_eq] at h
  obtain ⟨r₂, h₁₂, h₃⟩ := h.split
  obtain ⟨r₁, h₁, h₂⟩ := h₁₂.split
  have hlen := readDigits_of_delivers 1 h₂
  have hnum := readDigits_of_delivers 1 h₃
  rw [length_digits, value_one_digits (Nat.succ_ne_zero _)] at hlen
  rw [length_digits, value_one_digits hx] at hnum
  unfold read
  rw [readZeros_of_delivers hfuel h₁, Nat.zero_add]
  simp only [bind, Except.bind, hlen, Nat.succ_sub_one, hnum]

/-- A reader that delivers no first bit reads no code word. -/
theorem read_of_get_error {fuel : ℕ} {e : ε} (h : get r = .error e) :
    read get tooLong (fuel + 1) r = .error e := by
  unfold read
  rw [readZeros, h]
  rfl

end Reader

end EliasDelta
