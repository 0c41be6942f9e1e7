/-
Words that are shifted and combined with an exclusive or.

A word can be found again from its exclusive or with the word shifted by at least one bit: a
bit is combined with one the shift has moved there, which was found before.

Such maps are linear over the field of two elements.  A linear map that is zero on all words of
one bit is zero, and one that satisfies a polynomial whose constant coefficient is one has no
kernel.
-/
import Mathlib.Data.BitVec

namespace XorShift

variable {n : ℕ}

/-! ### Finding a word again -/

/--
A word is determined by its exclusive or with a word whose bits depend on earlier bits only;
`rank` is the order the bits are found in.
-/
theorem injective_xor {f : BitVec n → BitVec n} (rank : ℕ → ℕ)
    (hf : ∀ x y i, (∀ j, rank j < rank i → x.getLsbD j = y.getLsbD j) →
      (f x).getLsbD i = (f y).getLsbD i) : Function.Injective fun x => x ^^^ f x := by
  intro x y h
  have hbits : ∀ m i, rank i = m → x.getLsbD i = y.getLsbD i := by
    intro m
    induction m using Nat.strong_induction_on with
    | _ m ih =>
        intro i hi
        have hearlier := hf x y i fun j hj => ih (rank j) (hi ▸ hj) j rfl
        have hbit : (x ^^^ f x).getLsbD i = (y ^^^ f y).getLsbD i := congrArg (·.getLsbD i) h
        rw [BitVec.getLsbD_xor, BitVec.getLsbD_xor, hearlier] at hbit
        exact Bool.xor_left_inj.mp hbit
  exact BitVec.eq_of_getLsbD_eq fun i _ => hbits _ i rfl

theorem injective_xor_shiftLeft {k : ℕ} (hk : 0 < k) :
    Function.Injective fun x : BitVec n => x ^^^ (x <<< k) := by
  refine injective_xor id fun x y i h => ?_
  rw [BitVec.getLsbD_shiftLeft, BitVec.getLsbD_shiftLeft]
  by_cases hi : i < k
  · simp [hi]
  · rw [h (i - k) (by simp only [id]; omega)]

theorem injective_xor_ushiftRight {k : ℕ} (hk : 0 < k) :
    Function.Injective fun x : BitVec n => x ^^^ (x >>> k) := by
  refine injective_xor (n - ·) fun x y i h => ?_
  rw [BitVec.getLsbD_ushiftRight, BitVec.getLsbD_ushiftRight]
  by_cases hi : i < n
  · exact h (k + i) (by omega)
  · rw [BitVec.getLsbD_of_ge _ _ (by omega), BitVec.getLsbD_of_ge _ _ (by omega)]

/-! ### Linear maps -/

/-- A map that respects the exclusive or. -/
def Linear (f : BitVec n → BitVec n) : Prop := ∀ x y, f (x ^^^ y) = f x ^^^ f y

variable {f g : BitVec n → BitVec n}

theorem linear_id : Linear fun x : BitVec n => x := fun _ _ => rfl

theorem linear_shiftLeft (k : ℕ) : Linear fun x : BitVec n => x <<< k :=
  fun x y => BitVec.shiftLeft_xor_distrib x y k

theorem linear_ushiftRight (k : ℕ) : Linear fun x : BitVec n => x >>> k :=
  fun x y => BitVec.ushiftRight_xor_distrib x y k

theorem Linear.comp (hf : Linear f) (hg : Linear g) : Linear fun x => f (g x) :=
  fun x y => (congrArg f (hg x y)).trans (hf _ _)

theorem Linear.xor (hf : Linear f) (hg : Linear g) : Linear fun x => f x ^^^ g x := by
  intro x y
  simp only [hf x y, hg x y]
  ac_rfl

theorem Linear.zero (hf : Linear f) : f 0 = 0 := by
  have h := hf 0 0
  rwa [BitVec.xor_self, BitVec.xor_self] at h

/-- A linear map is zero when it is on the words of one bit. -/
theorem Linear.eq_zero (hf : Linear f) (h : ∀ i < n, f (BitVec.twoPow n i) = 0) (x : BitVec n) :
    f x = 0 := by
  have hlow : ∀ k ≤ n, ∀ x : BitVec n, (∀ j, k ≤ j → x.getLsbD j = false) → f x = 0 := by
    intro k
    induction k with
    | zero =>
        intro _ x hx
        rw [BitVec.eq_of_getLsbD_eq (x := x) (y := 0#n) fun i _ => by simp [hx i (Nat.zero_le i)]]
        exact hf.zero
    | succ k ih =>
        intro hk x hx
        by_cases hbit : x.getLsbD k
        · -- the highest bit is taken off
          have hrest : f (x ^^^ BitVec.twoPow n k) = 0 := by
            refine ih (by omega) _ fun j hj => ?_
            rw [BitVec.getLsbD_xor, BitVec.getLsbD_twoPow]
            rcases hj.eq_or_lt with rfl | hlt
            · simp [hbit, show k < n by omega]
            · simp [hx j hlt, show k ≠ j by omega]
          rw [hf, h k (by omega)] at hrest
          exact BitVec.xor_zero.symm.trans hrest
        · refine ih (by omega) x fun j hj => ?_
          rcases hj.eq_or_lt with rfl | hlt
          · exact Bool.eq_false_iff.mpr hbit
          · exact hx j hlt
  exact hlow n le_rfl x fun j hj => BitVec.getLsbD_of_ge x j hj

/-! ### Polynomials of a map -/

/-- The sum of the powers of `f` with these coefficients. -/
def polynomial (f : BitVec n → BitVec n) : List Bool → BitVec n → BitVec n
  | [], _ => 0
  | c :: cs, x => (if c then x else 0) ^^^ polynomial f cs (f x)

theorem Linear.polynomial (hf : Linear f) (cs : List Bool) : Linear (polynomial f cs) := by
  induction cs with
  | nil => exact fun _ _ => (BitVec.xor_self).symm
  | cons c cs ih =>
      refine Linear.xor ?_ (ih.comp hf)
      cases c with
      | false => exact fun _ _ => (BitVec.xor_self).symm
      | true => exact linear_id

/-- **A map with an annihilating polynomial has no kernel** when the constant coefficient is one. -/
theorem Linear.eq_zero_of_polynomial (hf : Linear f) {cs : List Bool}
    (h : ∀ i < n, XorShift.polynomial f (true :: cs) (BitVec.twoPow n i) = 0) {x : BitVec n}
    (hx : f x = 0) : x = 0 := by
  have hzero := (hf.polynomial (true :: cs)).eq_zero h x
  rw [XorShift.polynomial, hx, (hf.polynomial cs).zero, if_pos rfl] at hzero
  exact BitVec.xor_zero.symm.trans hzero

end XorShift
