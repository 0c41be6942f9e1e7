/-
The states of the random number generator.

The compressors that draw numbers take them from one generator with a state of two words.  A
draw keeps one word and replaces the other by words that are shifted and combined with an
exclusive or.  What a draw can do to a state decides whether the numbers go on.

It loses nothing: the word that is replaced can be found again from the new one and the one that
was kept, because a word combined with its own shift can be undone from the end the shift leaves
alone.  The states are finitely many, so that draws permute them.

The state that is zero does not change.  It is the only one: a state that a draw does not change
has two equal words, and on that word a map vanishes that is linear over the exclusive or.  A
polynomial of that map is zero, and its constant coefficient is one, so that the map vanishes on
no other word.

No seed gives the state that is zero, and no draw leads to it from another state, so that a
generator with a seed changes with every draw.
-/
import DeepInc.Compressor.Sparse
import DeepInc.Lib.XorShift
import Mathlib.Algebra.Field.Rat
import Mathlib.Data.Fintype.EquivFin
import Mathlib.Data.Fintype.Prod

namespace DeepInc.Compressor

open XorShift

namespace Rng

/-- The state after a draw. -/
def next (r : Rng) : Rng := r.xorshift128p.2

/-- What `xorshift128p` makes of `a` before it looks at `b`. -/
def mixed (x : BitVec 64) : BitVec 64 :=
  let t := x ^^^ (x <<< 23)
  t ^^^ (t >>> 17)

theorem ext {r r' : Rng} (ha : r.a = r'.a) (hb : r.b = r'.b) : r = r' := by
  cases r
  cases r'
  exact congrArg₂ mk ha hb

theorem next_eq (r : Rng) :
    r.next = { a := r.b, b := mixed r.a ^^^ (r.b ^^^ (r.b >>> 26)) } := rfl

/-! ### Draws permute the states

`mixed` is what is done to the word that is replaced before the other one comes in.  It is two
combinations of a word with its own shift, and each is injective on its own.
-/

theorem injective_mixed : Function.Injective mixed :=
  (injective_xor_ushiftRight (by decide)).comp (injective_xor_shiftLeft (by decide))

theorem injective_next : Function.Injective next := by
  intro r r' h
  rw [next_eq, next_eq, Rng.mk.injEq] at h
  obtain ⟨hb, hmixed⟩ := h
  rw [hb] at hmixed
  exact ext (injective_mixed ((BitVec.xor_left_inj _).mp hmixed)) hb

instance : Finite Rng :=
  Finite.of_injective (fun r : Rng => (r.a.toFin, r.b.toFin)) fun r r' h => by
    obtain ⟨ha, hb⟩ := Prod.mk.inj h
    exact ext (BitVec.toFin_inj.mp ha) (BitVec.toFin_inj.mp hb)

theorem bijective_next : Function.Bijective next := Finite.injective_iff_bijective.mp injective_next

theorem next_zero : next { a := 0, b := 0 } = { a := 0, b := 0 } := by decide

theorem next_eq_zero_iff (r : Rng) : r.next = { a := 0, b := 0 } ↔ r = { a := 0, b := 0 } := by
  constructor
  · exact fun h => injective_next (h.trans next_zero.symm)
  · rintro rfl
    exact next_zero

/-! ### No other state stays

A linear map on words of 64 bits need not be written as a matrix.  It is enough to know a
polynomial that vanishes on it, with a constant coefficient that is not zero: the map applied to
zero is zero, so that on a word of its kernel nothing but that coefficient is left.  The
polynomial was found elsewhere; that it vanishes is checked on the 64 words with one bit.
-/

/-- What has to vanish on the word of a state that a draw does not change. -/
def moved (x : BitVec 64) : BitVec 64 := mixed x ^^^ (x >>> 26)

theorem linear_mixed : Linear mixed :=
  (linear_id.xor (linear_ushiftRight 17)).comp (linear_id.xor (linear_shiftLeft 23))

theorem linear_moved : Linear moved := linear_mixed.xor (linear_ushiftRight 26)

/-- The coefficients of a polynomial that vanishes on `moved`, but for the constant one. -/
def annihilator : List Bool := (List.range 64).map (Nat.testBit 0x8505015e4503039f)

theorem polynomial_moved :
    ∀ i < 64, polynomial moved (true :: annihilator) (BitVec.twoPow 64 i) = 0 := by
  decide +kernel

theorem eq_zero_of_next_eq {r : Rng} (h : r.next = r) : r = { a := 0, b := 0 } := by
  have ha : r.b = r.a := congrArg a h
  have hb : mixed r.a ^^^ (r.b ^^^ (r.b >>> 26)) = r.b := congrArg b h
  have hmoved : moved r.b = 0 := by
    rw [← ha] at hb
    calc mixed r.b ^^^ (r.b >>> 26) = (mixed r.b ^^^ (r.b ^^^ (r.b >>> 26))) ^^^ r.b := by
          rw [BitVec.xor_comm r.b (r.b >>> 26), ← BitVec.xor_assoc, BitVec.xor_assoc _ r.b r.b,
            BitVec.xor_self, BitVec.xor_zero]
      _ = r.b ^^^ r.b := by rw [hb]
      _ = 0 := BitVec.xor_self
  have hzero : r.b = 0 := linear_moved.eq_zero_of_polynomial polynomial_moved hmoved
  exact ext (ha.symm.trans hzero) hzero

/-! ### Any number of draws

What is asked of a draw, a number below some bound, a quotient or a bit, does not matter to the
state it leaves.  So the state after draws is an iterate, whatever was asked for.
-/

/-- A draw, with what it is asked for. -/
inductive Draw
  | randint (high : ℕ)
  | rand
  | bernoulli (p : ℚ)

/-- The state a draw leaves. -/
def Draw.state (r : Rng) : Draw → Rng
  | randint high => (r.randint high).2
  | rand => (r.rand (K := ℚ)).2
  | bernoulli p => (r.bernoulli p).2

/-- The state some draws leave. -/
def after (r : Rng) (draws : List Draw) : Rng := draws.foldl Draw.state r

theorem after_eq_iterate (draws : List Draw) (r : Rng) : r.after draws = next^[draws.length] r := by
  induction draws generalizing r with
  | nil => rfl
  | cons draw draws ih =>
      have hstate : draw.state r = r.next := by cases draw <;> rfl
      calc r.after (draw :: draws) = (draw.state r).after draws := rfl
        _ = next^[draws.length + 1] r := by rw [hstate, ih, Function.iterate_succ_apply]

/-- `RandomkCompressor::CompressImpl` draws `k` times. -/
theorem selected_eq_after (len k : ℕ) (r : Rng) :
    (Randomk.selected len k r).2 = r.after (List.replicate k (.randint len)) := by
  induction k generalizing r with
  | zero => rfl
  | succ k ih => exact ih _

theorem injective_after (draws : List Draw) : Function.Injective fun r : Rng => r.after draws := by
  intro r r' h
  simp only [after_eq_iterate] at h
  exact injective_next.iterate draws.length h

theorem after_ne_zero {r : Rng} (hr : r ≠ { a := 0, b := 0 }) (draws : List Draw) :
    r.after draws ≠ { a := 0, b := 0 } := by
  intro h
  have hzero : (Rng.mk 0 0).after draws = { a := 0, b := 0 } := by
    rw [after_eq_iterate]
    exact Function.iterate_fixed next_zero _
  exact hr (injective_after draws (h.trans hzero.symm))

theorem seeded_ne_zero (device : Rng) {seed : BitVec 32} (hseed : seed ≠ 0) :
    seeded device seed ≠ { a := 0, b := 0 } := by
  intro h
  unfold seeded setSeed at h
  rw [if_pos hseed, Rng.mk.injEq] at h
  refine hseed (BitVec.eq_of_toNat_eq ?_)
  have hnat := congrArg BitVec.toNat h.1
  rwa [BitVec.toNat_setWidth_of_le (by decide)] at hnat

/--
**Draws permute the states**, and only the state that is zero stays.  A generator with a seed never
arrives there, so that every draw changes its state, and different states stay different.
-/
theorem draws_permute_states :
    Function.Bijective (fun r : Rng => r.xorshift128p.2) ∧
    (∀ r : Rng, r.xorshift128p.2 = { a := 0, b := 0 } ↔ r = { a := 0, b := 0 }) ∧
    (∀ (device : Rng) (seed : BitVec 32), seed ≠ 0 → ∀ draws : List Draw,
      (seeded device seed).after draws ≠ { a := 0, b := 0 } ∧
      ((seeded device seed).after draws).xorshift128p.2 ≠ (seeded device seed).after draws) ∧
    ∀ draws : List Draw, Function.Injective fun r : Rng => r.after draws := by
  refine ⟨bijective_next, next_eq_zero_iff, fun device seed hseed draws => ?_, injective_after⟩
  have hne := after_ne_zero (seeded_ne_zero device hseed) draws
  exact ⟨hne, fun h => hne (eq_zero_of_next_eq h)⟩

/-- The first seed, after two draws. -/
theorem draws_permute_states_one :
    (seeded ⟨0, 0⟩ 1).after [.randint 5, .bernoulli (1 / 2)] ≠ { a := 0, b := 0 } :=
  (draws_permute_states.2.2.1 ⟨0, 0⟩ 1 (by decide) _).1

end Rng

end DeepInc.Compressor
