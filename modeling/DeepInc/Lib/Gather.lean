/-
Rounds in which a root hears from each of its peers.

A counter holds what the root has heard since it was cleared last.  `Gathered` says that every
peer was heard in each of the rounds that are over, and that the counter holds what is heard
beyond.  As long as no peer is ahead by more than a round, a full counter means that all have
been heard in this one, and while one is missing the counter is not full.
-/
import Mathlib.Algebra.BigOperators.Group.Finset.Basic
import Mathlib.Algebra.Order.BigOperators.Group.Finset
import Mathlib.Algebra.Order.Ring.Int

namespace Gather

/-- Of `n` peers each was heard in `rounds` rounds, and `count` times altogether beyond. -/
structure Gathered (n : ℕ) (heard : ℕ → ℕ) (rounds : ℕ) (count : ℤ) : Prop where
  le : ∀ i < n, rounds ≤ heard i
  eq : count = ∑ i ∈ Finset.range n, ((heard i : ℤ) - rounds)

variable {n rounds : ℕ} {heard heard' : ℕ → ℕ} {count : ℤ}

namespace Gathered

theorem start (h : ∀ i < n, heard i = 0) : Gathered n heard 0 0 where
  le _ _ := Nat.zero_le _
  eq := by
    refine (Finset.sum_eq_zero fun i hi => ?_).symm
    rw [h i (Finset.mem_range.mp hi)]
    rfl

theorem congr (h : Gathered n heard rounds count) (hheard : ∀ i < n, heard' i = heard i) :
    Gathered n heard' rounds count where
  le i hi := hheard i hi ▸ h.le i hi
  eq := by
    rw [h.eq]
    refine Finset.sum_congr rfl fun i hi => ?_
    rw [hheard i (Finset.mem_range.mp hi)]

/-- One peer is heard. -/
theorem hear (h : Gathered n heard rounds count) {i : ℕ} (hi : i < n) (hself : heard' i = heard i + 1)
    (hother : ∀ j ≠ i, heard' j = heard j) : Gathered n heard' rounds (count + 1) where
  le j hj := by
    have := h.le j hj
    by_cases hji : j = i
    · rw [hji, hself]
      rw [hji] at this
      omega
    · rw [hother j hji]
      exact this
  eq := by
    have hmem : i ∈ Finset.range n := Finset.mem_range.mpr hi
    rw [h.eq, ← Finset.add_sum_erase _ _ hmem, ← Finset.add_sum_erase _ _ hmem, hself]
    have hrest : ∑ j ∈ (Finset.range n).erase i, ((heard' j : ℤ) - rounds) =
        ∑ j ∈ (Finset.range n).erase i, ((heard j : ℤ) - rounds) := by
      refine Finset.sum_congr rfl fun j hj => ?_
      rw [hother j (Finset.ne_of_mem_erase hj)]
    rw [hrest]
    push_cast
    omega

/-- While one peer is missing the counter is not full. -/
theorem count_lt (h : Gathered n heard rounds count) (hahead : ∀ j < n, heard j ≤ rounds + 1) {i : ℕ}
    (hi : i < n) (hmissing : heard i ≤ rounds) : count < n := by
  have hlt : ∑ j ∈ Finset.range n, ((heard j : ℤ) - rounds) < ∑ _j ∈ Finset.range n, (1 : ℤ) := by
    apply Finset.sum_lt_sum
    · intro j hj
      have := hahead j (Finset.mem_range.mp hj)
      omega
    · exact ⟨i, Finset.mem_range.mpr hi, by omega⟩
  rw [h.eq]
  simpa using hlt

/-- A full counter: all have been heard in this round. -/
theorem full (h : Gathered n heard rounds count) (hahead : ∀ j < n, heard j ≤ rounds + 1)
    (hcount : count = n) {i : ℕ} (hi : i < n) : heard i = rounds + 1 := by
  by_contra hne
  have hmissing : heard i ≤ rounds := by
    have := hahead i hi
    omega
  exact absurd (h.count_lt hahead hi hmissing) (by omega)

/-- A counter that is not full misses a peer. -/
theorem exists_missing (h : Gathered n heard rounds count) (hahead : ∀ j < n, heard j ≤ rounds + 1)
    (hcount : count ≠ n) : ∃ i < n, heard i ≤ rounds := by
  by_contra hnone
  push Not at hnone
  apply hcount
  have hall : ∑ i ∈ Finset.range n, ((heard i : ℤ) - rounds) = ∑ _i ∈ Finset.range n, (1 : ℤ) := by
    refine Finset.sum_congr rfl fun i hi => ?_
    have hi := Finset.mem_range.mp hi
    have hlow := hnone i hi
    have hhigh := hahead i hi
    omega
  rw [h.eq, hall]
  simp

/-- The round is over, and the counter is cleared. -/
theorem clear (h : ∀ i < n, heard i = rounds + 1) : Gathered n heard (rounds + 1) 0 where
  le i hi := Nat.le_of_eq (h i hi).symm
  eq := by
    refine (Finset.sum_eq_zero fun i hi => ?_).symm
    rw [h i (Finset.mem_range.mp hi)]
    push_cast
    omega

/-- A round may be over, if the counter is full. -/
theorem take (h : Gathered n heard rounds count) (hahead : ∀ j < n, heard j ≤ rounds + 1)
    (passed : Prop) [Decidable passed] (hfull : passed → count = n) :
    Gathered n heard (rounds + if passed then 1 else 0) (if passed then 0 else count) := by
  by_cases hpassed : passed
  · rw [if_pos hpassed, if_pos hpassed]
    exact clear fun i hi => h.full hahead (hfull hpassed) hi
  · rw [if_neg hpassed, if_neg hpassed]
    exact h

/-- The counter is set to full once more. -/
theorem refill (h : ∀ i < n, heard i = rounds + 1) : Gathered n heard rounds n where
  le i hi := by
    rw [h i hi]
    omega
  eq := by
    have hone : ∑ i ∈ Finset.range n, ((heard i : ℤ) - rounds) = ∑ _i ∈ Finset.range n, (1 : ℤ) := by
      refine Finset.sum_congr rfl fun i hi => ?_
      rw [h i (Finset.mem_range.mp hi)]
      push_cast
      omega
    rw [hone]
    simp

end Gathered

end Gather
