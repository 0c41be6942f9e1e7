/-
Runs that go on for ever, and what they come to.

An `Execution` takes an action at every moment, or rests.  It is fair to some actions when
none of them stays enabled for ever without being taken.  That is all a result about what
will happen can rest on: a client may be slow and a thread may not be scheduled for long.

`Variant` is the rule.  It asks for a measure that no step raises, and for actions that
help: each of them is enabled, taking one lowers the measure, and while the measure stays
what it is they go on helping.  A fair execution then gets to the goal, whatever else it
does in between.  `exists_fair` says that there are fair executions.
-/
import DeepInc.Lib.System
import Mathlib.Logic.Encodable.Basic
import Mathlib.Data.Nat.Pairing
import Mathlib.Order.WellFounded

namespace Transition

variable {σ ι : Type}

/-- A run without end: at every moment an action is taken, or nothing happens. -/
structure Execution (step : σ → ι → σ → Prop) where
  state : ℕ → σ
  action : ℕ → Option ι
  taken : ∀ n a, action n = some a → step (state n) a (state (n + 1))
  rest : ∀ n, action n = none → state (n + 1) = state n

/-- The action can be taken, and changes something. -/
def Enabled (step : σ → ι → σ → Prop) (s : σ) (a : ι) : Prop := ∃ s', step s a s' ∧ s' ≠ s

/-- None of the actions stays enabled for ever without being taken. -/
def Execution.Fair {step : σ → ι → σ → Prop} (e : Execution step) (just : ι → Prop) : Prop :=
  ∀ a, just a → ∀ n, (∀ m, n ≤ m → Enabled step (e.state m) a) → ∃ m, n ≤ m ∧ e.action m = some a

namespace Execution

variable {step : σ → ι → σ → Prop} {inv : σ → Prop}

/-- What every step keeps, holds from some moment on once it holds then. -/
theorem invariant (e : Execution step) (hstep : ∀ s a s', inv s → step s a s' → inv s') {n : ℕ}
    (h : inv (e.state n)) {m : ℕ} (hm : n ≤ m) : inv (e.state m) := by
  induction m, hm using Nat.le_induction with
  | base => exact h
  | succ m _ ih =>
      cases ha : e.action m with
      | none =>
          rw [e.rest m ha]
          exact ih
      | some a => exact hstep _ a _ ih (e.taken m a ha)

/-- An execution only gets to states that runs get to. -/
theorem reachable {init : σ → Prop} (e : Execution step) (h : Reachable init step (e.state 0))
    (n : ℕ) : Reachable init step (e.state n) :=
  e.invariant (fun _ _ _ hs hstep => .next hs hstep) h (Nat.zero_le n)

end Execution

/-! ### The rule -/

/-- A measure every helpful action lowers, and nothing raises. -/
structure Variant {M : Type} [Preorder M] (step : σ → ι → σ → Prop) (just : ι → Prop)
    (inv goal : σ → Prop) (measure : σ → M) (helps : σ → ι → Prop) : Prop where
  exists_helps : ∀ s, inv s → ¬goal s → ∃ a, just a ∧ helps s a
  enabled : ∀ s a, inv s → ¬goal s → helps s a → Enabled step s a
  step : ∀ s a s', inv s → ¬goal s → step s a s' → goal s' ∨ measure s' < measure s ∨
    (measure s' ≤ measure s ∧ ¬helps s a ∧ ∀ b, helps s b → helps s' b)

namespace Variant

variable {M : Type} [Preorder M] {step : σ → ι → σ → Prop} {just : ι → Prop}
variable {inv goal : σ → Prop} {measure : σ → M} {helps : σ → ι → Prop}

/-- As long as nothing is achieved, a helpful action stays helpful and is not taken. -/
theorem stays (h : Variant step just inv goal measure helps) (e : Execution step) {n : ℕ}
    (hinv : ∀ m, n ≤ m → inv (e.state m)) (hgoal : ∀ m, n ≤ m → ¬goal (e.state m))
    (hlow : ∀ m, n ≤ m → ¬measure (e.state m) < measure (e.state n)) {a : ι}
    (ha : helps (e.state n) a) {m : ℕ} (hm : n ≤ m) :
    helps (e.state m) a ∧ measure (e.state m) ≤ measure (e.state n) ∧ e.action m ≠ some a := by
  have hkeep : ∀ m, n ≤ m → helps (e.state m) a → measure (e.state m) ≤ measure (e.state n) →
      helps (e.state (m + 1)) a ∧ measure (e.state (m + 1)) ≤ measure (e.state n) ∧
        e.action m ≠ some a := by
    intro m hm hhelps hle
    cases hb : e.action m with
    | none =>
        rw [e.rest m hb]
        exact ⟨hhelps, hle, nofun⟩
    | some b =>
        have hnext : n ≤ m + 1 := Nat.le_succ_of_le hm
        rcases h.step _ b _ (hinv m hm) (hgoal m hm) (e.taken m b hb) with hg | hlt | ⟨hle', hnot, hall⟩
        · exact absurd hg (hgoal _ hnext)
        · exact absurd (lt_of_lt_of_le hlt hle) (hlow _ hnext)
        · refine ⟨hall a hhelps, le_trans hle' hle, fun heq => hnot ?_⟩
          rw [Option.some.inj heq]
          exact hhelps
  induction m, hm using Nat.le_induction with
  | base => exact ⟨ha, le_refl _, (hkeep n (Nat.le_refl n) ha (le_refl _)).2.2⟩
  | succ m hm ih =>
      obtain ⟨hhelps, hle, -⟩ := hkeep m hm ih.1 ih.2.1
      exact ⟨hhelps, hle, (hkeep (m + 1) (Nat.le_succ_of_le hm) hhelps hle).2.2⟩

/-- **A fair execution gets to the goal.** -/
theorem eventually [WellFoundedLT M] (h : Variant step just inv goal measure helps)
    (hstep : ∀ s a s', inv s → step s a s' → inv s') (e : Execution step) (hfair : e.Fair just)
    {n : ℕ} (hinv : inv (e.state n)) : ∃ m, n ≤ m ∧ goal (e.state m) := by
  induction hμ : measure (e.state n) using WellFoundedLT.induction generalizing n with
  | _ μ ih =>
    by_contra hnever
    have hgoal : ∀ m, n ≤ m → ¬goal (e.state m) := fun m hm hg => hnever ⟨m, hm, hg⟩
    have hall : ∀ m, n ≤ m → inv (e.state m) := fun m hm => e.invariant hstep hinv hm
    -- a lower measure would do, by induction
    have hlow : ∀ m, n ≤ m → ¬measure (e.state m) < measure (e.state n) := by
      intro m hm hlt
      obtain ⟨k, hk, hg⟩ := ih _ (hμ ▸ hlt) (hall m hm) rfl
      exact hgoal k (Nat.le_trans hm hk) hg
    obtain ⟨a, hjust, ha⟩ := h.exists_helps _ hinv (hgoal n (Nat.le_refl n))
    have hstays := fun m (hm : n ≤ m) => h.stays e hall hgoal hlow ha hm
    obtain ⟨m, hm, htaken⟩ := hfair a hjust n fun m hm =>
      h.enabled _ a (hall m hm) (hgoal m hm) (hstays m hm).1
    exact (hstays m hm).2.2 htaken

end Variant

/-! ### There are fair executions -/

section Schedule

variable (step : σ → ι → σ → Prop)

open Classical in
/-- The action is taken if that changes something. -/
noncomputable def attempt (s : σ) : Option ι → Option ι × σ
  | some a => if h : ∃ s', step s a s' ∧ s' ≠ s then (some a, h.choose) else (none, s)
  | none => (none, s)

variable {step}

theorem attempt_of_enabled {s : σ} {a : ι} (h : Enabled step s a) :
    (attempt step s (some a)).1 = some a ∧ step s a (attempt step s (some a)).2 := by
  have h' : ∃ s', step s a s' ∧ s' ≠ s := h
  rw [show attempt step s (some a) = (some a, h'.choose) from dif_pos h']
  exact ⟨rfl, h'.choose_spec.1⟩

theorem attempt_of_not_enabled {s : σ} {a : ι} (h : ¬Enabled step s a) :
    attempt step s (some a) = (none, s) := dif_neg h

/-- What was taken is a step. -/
theorem attempt_taken {s : σ} {o : Option ι} {a : ι} (h : (attempt step s o).1 = some a) :
    step s a (attempt step s o).2 := by
  cases o with
  | none => cases h
  | some b =>
      by_cases hb : Enabled step s b
      · obtain ⟨htaken, hstep⟩ := attempt_of_enabled hb
        obtain rfl := Option.some.inj (htaken.symm.trans h)
        exact hstep
      · rw [attempt_of_not_enabled hb] at h
        cases h

theorem attempt_rest {s : σ} {o : Option ι} (h : (attempt step s o).1 = none) :
    (attempt step s o).2 = s := by
  cases o with
  | none => rfl
  | some b =>
      by_cases hb : Enabled step s b
      · rw [(attempt_of_enabled hb).1] at h
        cases h
      · rw [attempt_of_not_enabled hb]

variable (step)

/-- Where the attempts of a schedule lead. -/
noncomputable def scheduled (schedule : ℕ → Option ι) (s : σ) : ℕ → σ
  | 0 => s
  | n + 1 => (attempt step (scheduled schedule s n) (schedule n)).2

/-- The execution that attempts the actions of a schedule. -/
noncomputable def Execution.ofSchedule (schedule : ℕ → Option ι) (s : σ) : Execution step where
  state := scheduled step schedule s
  action n := (attempt step (scheduled step schedule s n) (schedule n)).1
  taken _ _ := attempt_taken
  rest _ := attempt_rest

/-- A schedule that comes back to every action is fair to all. -/
theorem Execution.fair_ofSchedule {schedule : ℕ → Option ι}
    (hschedule : ∀ a n, ∃ m, n ≤ m ∧ schedule m = some a) (s : σ) (just : ι → Prop) :
    (ofSchedule step schedule s).Fair just := by
  intro a _ n henabled
  obtain ⟨m, hm, ha⟩ := hschedule a n
  refine ⟨m, hm, ?_⟩
  show (attempt step (scheduled step schedule s m) (schedule m)).1 = some a
  rw [ha]
  exact (attempt_of_enabled (henabled m hm)).1

/-- From every state there is an execution that is fair to all actions. -/
theorem exists_fair [Countable ι] (s : σ) :
    ∃ e : Execution step, e.state 0 = s ∧ ∀ just, e.Fair just := by
  obtain ⟨enc⟩ := nonempty_encodable ι
  refine ⟨.ofSchedule step (fun n => Encodable.decode n.unpair.1) s, rfl,
    Execution.fair_ofSchedule step (fun a n => ?_) s⟩
  refine ⟨Nat.pair (Encodable.encode a) n, Nat.right_le_pair _ _, ?_⟩
  rw [Nat.unpair_pair, Encodable.encodek]

end Schedule

end Transition
