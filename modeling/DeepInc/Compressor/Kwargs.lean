/-
The hyper-parameters of a compressor as text.

The worker writes the number of hyper-parameters and then every name and value, in the order
its map is iterated; the server reads the number and as many pairs.
-/
import DeepInc.Lib.Tokens
import Mathlib.Data.Finmap

namespace DeepInc.Compressor

open Tokens

/-- `std::string`, by the values of its characters. -/
abbrev Str := List UInt8

/-- The characters of a `std::istream`, in the classic locale. -/
def ascii : Charset UInt8 where
  space c := c.toNat = 32 || (9 ≤ c.toNat && c.toNat ≤ 13)
  plus := 43
  minus := 45
  digit d := 48 + UInt8.ofNat d
  digitVal c := if h : 48 ≤ c.toNat ∧ c.toNat - 48 < 10 then some ⟨c.toNat - 48, h.2⟩ else none
  digitVal_digit := by decide
  digitVal_space c hc := by
    simp only [Bool.or_eq_true, Bool.and_eq_true, decide_eq_true_eq] at hc
    exact dif_neg (by omega)
  digitVal_plus := by decide
  digitVal_minus := by decide

/-- `kwargs_t`, a map whose `size` is a `size_t`. -/
structure KwargsMap where
  map : Finmap fun _ : Str => Str
  size_lt : map.keys.card < 2 ^ 64

/-- An order the entries of a map can be iterated in. -/
def KwargsMap.IteratesAs (kwargs : KwargsMap) (order : List (Σ _ : Str, Str)) : Prop :=
  kwargs.map.entries = order

/-- `Serialize`, of a map that is iterated in an order. -/
def serialize (order : List (Σ _ : Str, Str)) : Str :=
  ascii.decimal order.length ++ order.flatMap fun kwarg => 32 :: kwarg.1 ++ 32 :: kwarg.2

/-- The loop of `Deserialize`. -/
def readKwargs : ℕ → Stream UInt8 → (Finmap fun _ : Str => Str) → Finmap fun _ : Str => Str
  | 0, _, kwargs => kwargs
  | size + 1, is, kwargs =>
    let (key, is) := is.word ascii
    let (val, is) := is.word ascii
    readKwargs size is (kwargs.insert key val)

/-- `Deserialize`, before its result is known to be a map that has a size. -/
def deserializeMap (content : Str) : Finmap fun _ : Str => Str :=
  let (size, is) := (Stream.left content).unsigned ascii 64
  readKwargs size is ∅

theorem readKwargs_succ (size : ℕ) (is : Stream UInt8) (kwargs : Finmap fun _ : Str => Str) :
    readKwargs (size + 1) is kwargs =
      readKwargs size ((is.word ascii).2.word ascii).2
        (kwargs.insert (is.word ascii).1 ((is.word ascii).2.word ascii).1) := rfl

/-- Every round of the loop adds at most one entry. -/
theorem card_readKwargs_le (size : ℕ) (is : Stream UInt8) (kwargs : Finmap fun _ : Str => Str) :
    (readKwargs size is kwargs).keys.card ≤ kwargs.keys.card + size := by
  induction size generalizing is kwargs with
  | zero => exact Nat.le_refl _
  | succ size ih =>
      have hinsert : ∀ key val, (kwargs.insert key val).keys = insert key kwargs.keys := by
        intro key val
        ext a
        simp [Finmap.mem_keys, Finmap.mem_insert]
      have hcard := Finset.card_insert_le (is.word ascii).1 kwargs.keys
      rw [readKwargs_succ]
      refine (ih _ _).trans ?_
      rw [hinsert]
      omega

/-- `Deserialize` -/
def deserialize (content : Str) : KwargsMap where
  map := deserializeMap content
  size_lt := by
    have hsize := unsigned_lt ascii (Stream.left content) 64
    have hcard := card_readKwargs_le ((Stream.left content).unsigned ascii 64).1
      ((Stream.left content).unsigned ascii 64).2 ∅
    rw [Finmap.keys_empty, Finset.card_empty, Nat.zero_add] at hcard
    exact Nat.lt_of_le_of_lt hcard hsize

end DeepInc.Compressor
