/-
Systems that run out of work.

When every step that changes something lowers a measure, a run comes to rest.  All it takes for
the run to get to the goal is that something can be done in every state that has not got there,
and that the run is not idle for ever while something can be done.  No action has to be treated
fairly.

The measure of a state of many parts is often a sum over the parts, and a step changes one of
them: `sum_update` says what that does to the sum.
-/
import DeepInc.Lib.Fair
import Mathlib.Algebra.BigOperators.Group.Finset.Basic
import Mathlib.Algebra.Order.BigOperators.Group.Finset

namespace Transition

variable {σ ι : Type} {step : σ → ι → σ → Prop}

/-- One term of a sum is replaced. -/
theorem sum_update {τ : Type} (f : τ → ℕ) (w : ℕ → τ) {n i : ℕ} (hi : i < n) (t : τ) :
    ∑ j ∈ Finset.range n, f (Function.update w i t j) + f (w i) =
      ∑ j ∈ Finset.range n, f (w j) + f t := by
  have hmem : i ∈ Finset.range n := Finset.mem_range.mpr hi
  rw [← Finset.add_sum_erase _ (fun j => f (Function.update w i t j)) hmem,
    ← Finset.add_sum_erase _ (fun j => f (w j)) hmem, Function.update_self]
  have hrest : ∑ j ∈ (Finset.range n).erase i, f (Function.update w i t j) =
      ∑ j ∈ (Finset.range n).erase i, f (w j) :=
    Finset.sum_congr rfl fun j hj => by rw [Function.update_of_ne (Finset.ne_of_mem_erase hj)]
  rw [hrest]
  omega

/-- One term of a sum falls by `a` and rises by `b`, and no other rises. -/
theorem sum_add_le {n i a b : ℕ} {f g : ℕ → ℕ} (hi : i < n) (h : f i + a ≤ g i + b)
    (hother : ∀ j < n, j ≠ i → f j ≤ g j) :
    ∑ j ∈ Finset.range n, f j + a ≤ ∑ j ∈ Finset.range n, g j + b := by
  have hmem : i ∈ Finset.range n := Finset.mem_range.mpr hi
  have hrest : ∑ j ∈ (Finset.range n).erase i, f j ≤ ∑ j ∈ (Finset.range n).erase i, g j :=
    Finset.sum_le_sum fun j hj =>
      hother j (Finset.mem_range.mp (Finset.mem_of_mem_erase hj)) (Finset.ne_of_mem_erase hj)
  rw [← Finset.add_sum_erase _ f hmem, ← Finset.add_sum_erase _ g hmem]
  omega

/-- While something can be done, something is done in the end. -/
def Execution.Busy (e : Execution step) : Prop :=
  ∀ n, (∃ a, Enabled step (e.state n) a) → ∃ m, n ≤ m ∧ e.state (m + 1) ≠ e.state m

/-- A measure every change lowers, and no rest before the goal. -/
structure Drains {M : Type} [Preorder M] (step : σ → ι → σ → Prop) (inv goal : σ → Prop)
    (measure : σ → M) : Prop where
  enabled : ∀ s, inv s → ¬goal s → ∃ a, Enabled step s a
  step : ∀ s a s', inv s → step s a s' → s' = s ∨ measure s' < measure s

namespace Drains

variable {M : Type} [Preorder M] {inv goal : σ → Prop} {measure : σ → M}

/-- The measure never rises. -/
theorem measure_le (h : Drains step inv goal measure)
    (hstep : ∀ s a s', inv s → step s a s' → inv s') (e : Execution step) {n : ℕ}
    (hinv : inv (e.state n)) {m : ℕ} (hm : n ≤ m) :
    measure (e.state m) ≤ measure (e.state n) := by
  induction m, hm using Nat.le_induction with
  | base => exact le_refl _
  | succ m hm ih =>
      refine le_trans ?_ ih
      cases ha : e.action m with
      | none => rw [e.rest m ha]
      | some a =>
          rcases h.step _ a _ (e.invariant hstep hinv hm) (e.taken m a ha) with hsame | hlt
          · rw [hsame]
          · exact le_of_lt hlt

/-- **A busy execution gets to the goal.** -/
theorem eventually [WellFoundedLT M] (h : Drains step inv goal measure)
    (hstep : ∀ s a s', inv s → step s a s' → inv s') (e : Execution step) (hbusy : e.Busy)
    {n : ℕ} (hinv : inv (e.state n)) : ∃ m, n ≤ m ∧ goal (e.state m) := by
  induction hμ : measure (e.state n) using WellFoundedLT.induction generalizing n with
  | _ μ ih =>
    by_cases hgoal : goal (e.state n)
    · exact ⟨n, Nat.le_refl n, hgoal⟩
    · obtain ⟨m, hm, hchange⟩ := hbusy n (h.enabled _ hinv hgoal)
      have hinvm := e.invariant hstep hinv hm
      have hlt : measure (e.state (m + 1)) < measure (e.state m) := by
        cases ha : e.action m with
        | none => exact absurd (e.rest m ha) hchange
        | some a => exact (h.step _ a _ hinvm (e.taken m a ha)).resolve_left hchange
      have hlow := lt_of_lt_of_le hlt (h.measure_le hstep e hinv hm)
      obtain ⟨k, hk, hg⟩ := ih _ (hμ ▸ hlow)
        (e.invariant hstep hinv (Nat.le_succ_of_le hm)) rfl
      exact ⟨k, by omega, hg⟩

end Drains

/-! ### There are busy executions -/

section Busy

variable (step)

open Classical in
/-- Something that changes the state, if there is such a thing. -/
noncomputable def someStep (s : σ) : Option ι × σ :=
  if h : ∃ a s', step s a s' ∧ s' ≠ s then (some h.choose, h.choose_spec.choose) else (none, s)

variable {step}

theorem someStep_of_enabled {s : σ} (h : ∃ a, Enabled step s a) :
    ∃ a, (someStep step s).1 = some a ∧ step s a (someStep step s).2 ∧ (someStep step s).2 ≠ s := by
  have h' : ∃ a s', step s a s' ∧ s' ≠ s := h
  have heq : someStep step s = (some h'.choose, h'.choose_spec.choose) := dif_pos h'
  rw [heq]
  exact ⟨_, rfl, h'.choose_spec.choose_spec⟩

theorem someStep_of_not_enabled {s : σ} (h : ¬∃ a, Enabled step s a) :
    someStep step s = (none, s) := dif_neg h

variable (step)

/-- The execution that always does something, as long as it can. -/
noncomputable def Execution.eager (s : σ) : Execution step where
  state n := (fun s => (someStep step s).2)^[n] s
  action n := (someStep step ((fun s => (someStep step s).2)^[n] s)).1
  taken n a h := by
    rw [Function.iterate_succ_apply']
    by_cases hs : ∃ a, Enabled step ((fun s => (someStep step s).2)^[n] s) a
    · obtain ⟨b, hb, hstep, -⟩ := someStep_of_enabled hs
      obtain rfl := Option.some.inj (hb.symm.trans h)
      exact hstep
    · rw [someStep_of_not_enabled hs] at h
      cases h
  rest n h := by
    rw [Function.iterate_succ_apply']
    by_cases hs : ∃ a, Enabled step ((fun s => (someStep step s).2)^[n] s) a
    · obtain ⟨b, hb, -⟩ := someStep_of_enabled hs
      rw [hb] at h
      cases h
    · rw [someStep_of_not_enabled hs]

/-- From every state there is a busy execution. -/
theorem exists_busy (s : σ) : ∃ e : Execution step, e.state 0 = s ∧ e.Busy := by
  refine ⟨.eager step s, rfl, fun n h => ⟨n, Nat.le_refl n, ?_⟩⟩
  obtain ⟨a, -, -, hne⟩ := someStep_of_enabled h
  show (fun s => (someStep step s).2)^[n + 1] s ≠ _
  rw [Function.iterate_succ_apply']
  exact hne

end Busy

end Transition
