/-
Loops over the elements of buffers that may be the same.

Iteration `i` reads element `i` of every buffer and writes element `i` of one of them.  No other
iteration reads what it writes, so a loop leaves what its body gives of the contents before it,
whichever of the buffers are the same.
-/
import Mathlib.Data.List.Nodup
import Mathlib.Logic.Function.Basic

namespace InPlace

/-- Iterations that change one place each, and each a place of its own. -/
theorem foldl_apply {σ β : Type} (read : σ → ℕ → β) {step : σ → ℕ → σ} {f : ℕ → β → β}
    (hstep : ∀ s i j, read (step s i) j = if j = i then f i (read s i) else read s j)
    {is : List ℕ} (his : is.Nodup) (s : σ) (j : ℕ) :
    read (is.foldl step s) j = if j ∈ is then f j (read s j) else read s j := by
  induction is generalizing s with
  | nil => rfl
  | cons i is ih =>
      obtain ⟨hi, his⟩ := List.nodup_cons.mp his
      rw [List.foldl_cons, ih his, hstep]
      by_cases hji : j = i
      · subst hji
        rw [if_neg hi, if_pos rfl, if_pos List.mem_cons_self]
      · rw [if_neg hji]
        by_cases hj : j ∈ is
        · rw [if_pos hj, if_pos (List.mem_cons_of_mem i hj)]
        · rw [if_neg hj, if_neg (List.not_mem_cons_of_ne_of_not_mem hji hj)]

/-! ### Buffers -/

section Buffers

variable {ρ α : Type} [DecidableEq ρ]

/-- Element `i` of every buffer. -/
def column (m : ρ → ℕ → α) (i : ℕ) : ρ → α := fun p => m p i

/-- `dst[i] = x` -/
def store (m : ρ → ℕ → α) (dst : ρ) (i : ℕ) (x : α) : ρ → ℕ → α :=
  Function.update m dst (Function.update (m dst) i x)

/-- The loop over `is` that stores in `dst` what `body` gives of each column. -/
def loop (dst : ρ) (body : (ρ → α) → α) (is : List ℕ) (m : ρ → ℕ → α) : ρ → ℕ → α :=
  is.foldl (fun m i => store m dst i (body (column m i))) m

theorem column_store (m : ρ → ℕ → α) (dst : ρ) (i j : ℕ) (x : α) :
    column (store m dst i x) j =
      if j = i then Function.update (column m i) dst x else column m j := by
  funext p
  unfold column store
  by_cases hp : p = dst
  · subst hp
    rw [Function.update_self]
    by_cases hj : j = i
    · subst hj
      rw [Function.update_self, if_pos rfl, Function.update_self]
    · rw [Function.update_of_ne hj, if_neg hj]
  · rw [Function.update_of_ne hp]
    by_cases hj : j = i
    · subst hj
      rw [if_pos rfl, Function.update_of_ne hp]
    · rw [if_neg hj]

theorem loop_apply (dst : ρ) (body : (ρ → α) → α) {is : List ℕ} (his : is.Nodup)
    (m : ρ → ℕ → α) (p : ρ) (j : ℕ) :
    loop dst body is m p j = if p = dst ∧ j ∈ is then body (column m j) else m p j := by
  have hcolumn := foldl_apply column (f := fun _ x => Function.update x dst (body x))
    (fun m i j => column_store m dst i j _) his m j
  have hloop : loop dst body is m p j =
      (if j ∈ is then Function.update (column m j) dst (body (column m j)) else column m j) p :=
    congrFun hcolumn p
  rw [hloop]
  by_cases hj : j ∈ is
  · rw [if_pos hj]
    by_cases hp : p = dst
    · subst hp
      rw [Function.update_self, if_pos ⟨rfl, hj⟩]
    · rw [Function.update_of_ne hp, if_neg fun h => hp h.1]
      rfl
  · rw [if_neg hj, if_neg fun h => hj h.2]
    rfl

end Buffers

end InPlace
