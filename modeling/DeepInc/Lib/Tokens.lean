/-
Words and numbers in a stream of characters.

A stream is read from the front.  A word is what stands between two spaces, a number is its
decimal digits; a read that finds neither fails, and after a read that fails or arrives at the
end every further one fails too.  What is written word by word, a space before each, is read
back word by word.
-/
import Mathlib.Data.Nat.Digits.Defs
import Mathlib.Data.Nat.Digits.Lemmas

namespace Tokens

/-- The characters that matter. -/
structure Charset (α : Type) where
  space : α → Bool
  plus : α
  minus : α
  /-- the character of a digit -/
  digit : Fin 10 → α
  digitVal : α → Option (Fin 10)
  digitVal_digit : ∀ d, digitVal (digit d) = some d
  digitVal_space : ∀ c, space c = true → digitVal c = none
  digitVal_plus : digitVal plus = none
  digitVal_minus : digitVal minus = none

/-- A stream, and whether it can still be read from. -/
structure Stream (α : Type) where
  rest : List α
  good : Bool

variable {α : Type}

/-- What is left after a read that found something. -/
def Stream.left (rest : List α) : Stream α := { rest := rest, good := !rest.isEmpty }

variable (cs : Charset α)

/-! ### Reading -/

/-- The next word; empty when there is none. -/
def Stream.word (s : Stream α) : List α × Stream α :=
  if s.good then
    let rest := s.rest.dropWhile cs.space
    (rest.takeWhile fun c => !cs.space c, .left (rest.dropWhile fun c => !cs.space c))
  else ([], s)

/-- The number some digits stand for. -/
def Charset.value (digits : List α) : ℕ :=
  digits.foldl (fun n c => n * 10 + ((cs.digitVal c).elim 0 (·.val))) 0

/-- A sign, and what follows it. -/
def Charset.sign [DecidableEq α] : List α → Bool × List α
  | [] => (false, [])
  | c :: rest =>
    if c = cs.minus then (true, rest) else if c = cs.plus then (false, rest) else (false, c :: rest)

/--
The next number, as an unsigned one of `w` bits: the negative of one is taken modulo `2 ^ w`, and
one that is too large is a failure and reads as the largest.
-/
def Stream.unsigned [DecidableEq α] (w : ℕ) (s : Stream α) : ℕ × Stream α :=
  if s.good then
    let (negative, rest) := cs.sign (s.rest.dropWhile cs.space)
    let digits := rest.takeWhile fun c => (cs.digitVal c).isSome
    let rest := rest.dropWhile fun c => (cs.digitVal c).isSome
    let n := cs.value digits
    if digits = [] then (0, { rest := rest, good := false })
    else if 2 ^ w ≤ n then (2 ^ w - 1, { rest := rest, good := false })
    else (if negative then (2 ^ w - n) % 2 ^ w else n, .left rest)
  else (0, s)

/-! ### Writing -/

/-- A number in decimal. -/
def Charset.decimal (n : ℕ) : List α :=
  if n = 0 then [cs.digit 0] else ((Nat.digits 10 n).reverse.map fun d => cs.digit (Fin.ofNat 10 d))

/-- A word that can be read back. -/
def Charset.IsWord (t : List α) : Prop := t ≠ [] ∧ ∀ c ∈ t, cs.space c = false

/-- What ends a word. -/
def Charset.Ends (rest : List α) : Prop := ∀ c ∈ rest.head?, cs.space c = true

/-! ### Reading back -/

section

variable {p : α → Bool} {t rest : List α}

theorem takeWhile_append (ht : ∀ c ∈ t, p c = true) (hrest : ∀ c ∈ rest.head?, p c = false) :
    (t ++ rest).takeWhile p = t := by
  rw [List.takeWhile_append_of_pos ht]
  cases rest with
  | nil => simp
  | cons c rest => simp [hrest c rfl]

theorem dropWhile_append (ht : ∀ c ∈ t, p c = true) (hrest : ∀ c ∈ rest.head?, p c = false) :
    (t ++ rest).dropWhile p = rest := by
  rw [List.dropWhile_append_of_pos ht]
  cases rest with
  | nil => simp
  | cons c rest => simp [hrest c rfl]

end

variable {cs}

theorem Stream.left_append {t : List α} (ht : t ≠ []) (rest : List α) :
    Stream.left (t ++ rest) = { rest := t ++ rest, good := true } := by
  simp [Stream.left, ht]

/-- The first character of a word is no space. -/
theorem Charset.IsWord.head {t : List α} (ht : cs.IsWord t) (rest : List α) :
    ∀ c ∈ (t ++ rest).head?, cs.space c = false := by
  obtain ⟨c, t', rfl⟩ := List.exists_cons_of_ne_nil ht.1
  intro c' hc'
  obtain rfl := Option.some.inj hc'
  exact ht.2 _ List.mem_cons_self

/-- **A word is read back**, up to the space or the end behind it. -/
theorem word_left {c : α} {t rest : List α} (hc : cs.space c = true) (ht : cs.IsWord t)
    (hrest : cs.Ends rest) : (Stream.left (c :: (t ++ rest))).word cs = (t, .left rest) := by
  have hskip : (c :: (t ++ rest)).dropWhile cs.space = t ++ rest :=
    dropWhile_append (t := [c]) (by simpa using hc) (ht.head rest)
  have hword : ∀ c ∈ t, (!cs.space c) = true := fun c hc => by simp [ht.2 c hc]
  have hends : ∀ c ∈ rest.head?, (!cs.space c) = false := fun c hc => by simp [hrest c hc]
  have hgood : (Stream.left (c :: (t ++ rest))).good = true := rfl
  unfold Stream.word
  rw [if_pos hgood]
  simp only [Stream.left, hskip]
  rw [takeWhile_append hword hends, dropWhile_append hword hends]

/-! ### Numbers -/

theorem unsigned_lt [DecidableEq α] (cs : Charset α) (s : Stream α) (w : ℕ) : (s.unsigned cs w).1 < 2 ^ w := by
  have hpos : 0 < 2 ^ w := Nat.two_pow_pos w
  unfold Stream.unsigned
  split
  · dsimp only
    split
    · exact hpos
    · split
      · exact Nat.sub_lt hpos Nat.one_pos
      · split
        · exact Nat.mod_lt _ hpos
        · omega
  · exact hpos

theorem decimal_ne_nil (cs : Charset α) (n : ℕ) : cs.decimal n ≠ [] := by
  unfold Charset.decimal
  split
  · simp
  · rename_i hn
    simpa [Nat.digits_eq_nil_iff_eq_zero] using hn

/-- Every character of a number is a digit. -/
theorem digitVal_decimal (cs : Charset α) (n : ℕ) : ∀ c ∈ cs.decimal n, (cs.digitVal c).isSome = true := by
  intro c hc
  unfold Charset.decimal at hc
  split at hc
  · obtain rfl := List.mem_singleton.mp hc
    rw [cs.digitVal_digit]
    rfl
  · obtain ⟨d, _, rfl⟩ := List.mem_map.mp hc
    rw [cs.digitVal_digit]
    rfl

/-- The digits of a number stand for it. -/
theorem value_decimal (n : ℕ) : cs.value (cs.decimal n) = n := by
  unfold Charset.decimal Charset.value
  split
  · rename_i hn
    simp [cs.digitVal_digit, hn]
  · rw [List.foldl_map, List.foldl_reverse]
    have hdigits : ∀ l : List ℕ, (∀ d ∈ l, d < 10) →
        l.foldr (fun d n => n * 10 + ((cs.digitVal (cs.digit (Fin.ofNat 10 d))).elim 0 (·.val))) 0 =
          Nat.ofDigits 10 l := by
      intro l hl
      induction l with
      | nil => rfl
      | cons d l ih =>
          rw [List.foldr_cons, ih fun x hx => hl x (List.mem_cons_of_mem _ hx), cs.digitVal_digit,
            Nat.ofDigits_cons]
          have hd := Nat.mod_eq_of_lt (hl d List.mem_cons_self)
          simp only [Option.elim_some, Fin.val_ofNat, hd]
          omega
    rw [hdigits _ fun d hd => Nat.digits_lt_base (by omega) hd, Nat.ofDigits_digits]

/-- **A number is read back**, up to the space or the end behind it. -/
theorem unsigned_left [DecidableEq α] {w n : ℕ} {rest : List α} (hn : n < 2 ^ w)
    (hrest : cs.Ends rest) :
    (Stream.left (cs.decimal n ++ rest)).unsigned cs w = (n, .left rest) := by
  have hends : ∀ c ∈ rest.head?, (cs.digitVal c).isSome = false := fun c hc => by
    rw [cs.digitVal_space c (hrest c hc)]
    rfl
  have hdigits := takeWhile_append (digitVal_decimal cs n) hends
  have hrest' := dropWhile_append (digitVal_decimal cs n) hends
  obtain ⟨c, t, hcons⟩ := List.exists_cons_of_ne_nil (decimal_ne_nil cs n)
  have hc : (cs.digitVal c).isSome = true := digitVal_decimal cs n c (hcons ▸ List.mem_cons_self)
  have hspace : cs.space c ≠ true := fun h => by
    rw [cs.digitVal_space c h] at hc
    simp at hc
  have hminus : c ≠ cs.minus := by
    rintro rfl
    rw [cs.digitVal_minus] at hc
    simp at hc
  have hplus : c ≠ cs.plus := by
    rintro rfl
    rw [cs.digitVal_plus] at hc
    simp at hc
  have hskip : (cs.decimal n ++ rest).dropWhile cs.space = cs.decimal n ++ rest := by
    rw [hcons, List.cons_append, List.dropWhile_cons_of_neg hspace]
  have hsign : cs.sign (cs.decimal n ++ rest) = (false, cs.decimal n ++ rest) := by
    rw [hcons, List.cons_append]
    simp only [Charset.sign, if_neg hminus, if_neg hplus]
  unfold Stream.unsigned
  rw [Stream.left_append (decimal_ne_nil cs n), if_pos rfl]
  simp only [hskip, hsign, hdigits, hrest', value_decimal, if_neg (decimal_ne_nil cs n),
    if_neg (Nat.not_le.mpr hn), Bool.false_eq_true, if_false]

end Tokens
