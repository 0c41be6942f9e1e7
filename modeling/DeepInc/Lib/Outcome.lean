/-
What a computation that may fail ensures.

`Ensures x Q F` is the total reading of an `Except`: a value satisfies `Q`, an error
satisfies `F`.  Taking `F` to be `False` says that nothing fails.  The rule for a bind
composes two such facts, so that a function written as a chain of binds is verified one
call at a time, from what each of its callees ensures.
-/
import Mathlib.Init

namespace Outcome

variable {ε α β : Type}

/-- Every value satisfies `Q`, every error `F`. -/
inductive Ensures : Except ε α → (α → Prop) → (ε → Prop) → Prop
  | ok {a : α} {Q : α → Prop} {F : ε → Prop} (h : Q a) : Ensures (.ok a) Q F
  | error {e : ε} {Q : α → Prop} {F : ε → Prop} (h : F e) : Ensures (.error e) Q F

variable {x : Except ε α} {f : α → Except ε β} {Q Q' : α → Prop} {R : β → Prop} {F F' : ε → Prop}

namespace Ensures

theorem bind (hx : Ensures x Q F) (hf : ∀ a, Q a → Ensures (f a) R F) :
    Ensures (x >>= f) R F := by
  cases hx with
  | ok h => exact hf _ h
  | error h => exact .error h

theorem mono (h : Ensures x Q F) (hQ : ∀ a, Q a → Q' a) (hF : ∀ e, F e → F' e) :
    Ensures x Q' F' := by
  cases h with
  | ok h => exact .ok (hQ _ h)
  | error h => exact .error (hF _ h)

theorem map {g : α → β} (h : Ensures x (fun a => R (g a)) F) : Ensures (x.map g) R F := by
  cases h with
  | ok h => exact .ok h
  | error h => exact .error h

theorem of_ok {a : α} (h : Ensures (.ok a) Q F) : Q a := by
  cases h
  assumption

theorem of_eq_ok {a : α} (h : Ensures x Q F) (hx : x = .ok a) : Q a := (hx ▸ h).of_ok

theorem of_error {e : ε} (h : Ensures (.error e : Except ε α) Q F) : F e := by
  cases h
  assumption

/-- Of a call nothing may be needed. -/
theorem any (x : Except ε α) : Ensures x (fun _ => True) fun _ => True := by
  cases x with
  | ok a => exact .ok trivial
  | error e => exact .error trivial

/-- A computation that cannot fail has a value. -/
theorem exists_ok (h : Ensures x Q fun _ => False) : ∃ a, x = .ok a ∧ Q a := by
  cases h with
  | ok h => exact ⟨_, rfl, h⟩
  | error h => exact h.elim

end Ensures

theorem ok_bind (a : α) (f : α → Except ε β) : ((.ok a : Except ε α) >>= f) = f a := rfl

/-- A computation that has a value has one at each of its calls. -/
theorem bind_eq_ok {b : β} (h : (x >>= f) = .ok b) : ∃ a, x = .ok a ∧ f a = .ok b := by
  cases x with
  | error e => cases h
  | ok a => exact ⟨a, rfl, h⟩

theorem map_eq_ok {g : α → β} {b : β} (h : x.map g = .ok b) : ∃ a, x = .ok a ∧ g a = b := by
  cases x with
  | error e => cases h
  | ok a => exact ⟨a, rfl, Except.ok.inj h⟩

theorem toOption_eq_some {x : Except ε α} {a : α} (h : x.toOption = some a) : x = .ok a := by
  cases x with
  | ok b => exact congrArg Except.ok (Option.some.inj h)
  | error e => cases h

end Outcome
