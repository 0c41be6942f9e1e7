/-
Placing jobs on the least loaded place.

Jobs come one after another, and each goes where the load is least at that time.  A place that
is given a job was not above any other before, so no two loads are ever further apart than the
greatest job.
-/
import Mathlib.Algebra.Order.BigOperators.Group.List
import Mathlib.Algebra.Order.Ring.Nat
import Mathlib.Logic.Function.Basic

namespace Greedy

variable {ι : Type} [DecidableEq ι]

/-- The loads after some jobs, each with the place it was put. -/
inductive Placed : List (ℕ × ι) → (ι → ℕ) → Prop
  | start : Placed [] fun _ => 0
  | place {jobs : List (ℕ × ι)} {load : ι → ℕ} {i : ι} (len : ℕ) (h : Placed jobs load)
      (hleast : ∀ j, load i ≤ load j) :
      Placed (jobs ++ [(len, i)]) (Function.update load i (load i + len))

/-- The jobs of one place. -/
def on (jobs : List (ℕ × ι)) (i : ι) : List ℕ := (jobs.filter fun job => job.2 = i).map (·.1)

/-- The greatest job. -/
def largest (jobs : List (ℕ × ι)) : ℕ := (jobs.map (·.1)).foldr max 0

theorem on_append (jobs : List (ℕ × ι)) (len : ℕ) (i j : ι) :
    on (jobs ++ [(len, i)]) j = if i = j then on jobs j ++ [len] else on jobs j := by
  unfold on
  rw [List.filter_append, List.map_append]
  split
  · rename_i h
    simp [h]
  · rename_i h
    simp [h]

omit [DecidableEq ι] in
theorem largest_append (jobs : List (ℕ × ι)) (len : ℕ) (i : ι) :
    largest (jobs ++ [(len, i)]) = max (largest jobs) len := by
  unfold largest
  induction jobs with
  | nil => simp
  | cons job jobs ih => simp only [List.cons_append, List.map_cons, List.foldr_cons, ih, max_assoc]

namespace Placed

variable {jobs : List (ℕ × ι)} {load : ι → ℕ}

/-- A load is the sum of the jobs put there. -/
theorem load_eq (h : Placed jobs load) (i : ι) : load i = (on jobs i).sum := by
  induction h with
  | start => rfl
  | @place jobs load i' len _ _ ih =>
      rw [on_append]
      split
      · rename_i heq
        subst heq
        rw [Function.update_self, List.sum_append, List.sum_singleton, ih]
      · rename_i hne
        rw [Function.update_of_ne (Ne.symm hne), ih]

/-- And no more than all jobs together. -/
theorem load_le_sum (h : Placed jobs load) (i : ι) : load i ≤ (jobs.map (·.1)).sum := by
  rw [h.load_eq i]
  exact List.Sublist.sum_le_sum (List.filter_sublist.map _) fun _ _ => Nat.zero_le _

/-- **No two loads are further apart than the greatest job.** -/
theorem balanced (h : Placed jobs load) (i j : ι) : load i ≤ load j + largest jobs := by
  induction h generalizing i j with
  | start => exact Nat.zero_le _
  | @place jobs load i' len _ hleast ih =>
      have hle : load j ≤ Function.update load i' (load i' + len) j := by
        by_cases hj : j = i'
        · rw [hj, Function.update_self]
          exact Nat.le_add_right _ _
        · rw [Function.update_of_ne hj]
      rw [largest_append]
      by_cases hi : i = i'
      · -- the place that was given the job was at most as loaded as `j`
        have hless := hleast j
        rw [hi, Function.update_self]
        omega
      · have hapart := ih i j
        rw [Function.update_of_ne hi]
        omega

end Placed

end Greedy
