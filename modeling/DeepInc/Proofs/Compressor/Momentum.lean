/-
Nesterov momentum, in closed form.

`UpdateMom` scales the momentum by `mu` and adds the gradient; `UpdateGradient` adds the
momentum, scaled, to the gradient.  Both are calls of a summing function that writes over one of
the buffers it reads.  The first leaves the gradient alone, the second the momentum, and no
element is read after it was written.

So what is handed on to the compressor holds the gradient once, and the momentum that already
has this gradient in it, scaled.  A call scales by one more `mu` what the earlier gradients have
left, and what they have left is the decaying sum of all of them.

The compressor inside may be any.  It may change the tensor it gets, so that nothing is known of
the gradient after a call; and nothing has to be, because the next call brings another.
-/
import DeepInc.Compressor.Momentum
import DeepInc.Lib.Outcome
import Mathlib.Algebra.BigOperators.Intervals
import Mathlib.Algebra.BigOperators.Ring.Finset
import Mathlib.Data.Rat.Floor
import Mathlib.Tactic.Ring

namespace DeepInc.Compressor.Momentum

variable {σ ρ K : Type}

/-! ### Decaying sums -/

section Decay

variable [CommSemiring K]

/-- Each of `x 1`, …, `x t` scaled by `mu` once for every one after it. -/
def decaying (mu : K) (x : ℕ → K) (t : ℕ) : K := ∑ j ∈ Finset.Icc 1 t, mu ^ (t - j) * x j

theorem mul_decaying (mu : K) (x : ℕ → K) (t : ℕ) :
    mu * decaying mu x t = ∑ j ∈ Finset.Icc 1 t, mu ^ (t - j + 1) * x j := by
  unfold decaying
  rw [Finset.mul_sum]
  refine Finset.sum_congr rfl fun j _ => ?_
  rw [pow_succ']
  ring

/-- The next one is added to what is there, scaled. -/
theorem decaying_succ (mu : K) (x : ℕ → K) (t : ℕ) :
    decaying mu x (t + 1) = x (t + 1) + mu * decaying mu x t := by
  rw [mul_decaying]
  unfold decaying
  rw [Finset.sum_Icc_succ_top (Nat.le_add_left 1 t), Nat.sub_self, pow_zero, one_mul, add_comm]
  refine congrArg (x (t + 1) + ·) (Finset.sum_congr rfl fun j hj => ?_)
  rw [Nat.succ_sub (Finset.mem_Icc.mp hj).2]

end Decay

/-! ### One call

The two updates are loops over buffers that overlap.  `Lib/InPlace.lean` says what such a loop
leaves where every element is visited once, and the two equations here are that lemma for the
two ways the buffers are chosen.
-/

section Call

variable [Add K] [Mul K] (m : Momentum σ K) (grad : Tensor K)

/-- The momentum `UpdateMom` leaves. -/
def nextMom : Mem K := fun i =>
  if i < grad.size / getDataTypeLength grad.dtype then grad.data i + m.mu * m.mom i else m.mom i

/-- The gradient with the momentum added, scaled. -/
def addMom : Tensor K := { grad with
  data := fun i => if i < grad.size / getDataTypeLength grad.dtype
    then grad.data i + m.mu * m.mom i else grad.data i }

theorem updateMom_eq : m.updateMom grad = ({ m with mom := nextMom m grad }, grad) := by
  have hmom : CpuReducer.sumOfScaled (m.memory grad) .mom .grad .mom grad.size grad.dtype m.mu .mom =
      nextMom m grad := by
    funext i
    simp only [CpuReducer.sumOfScaled_apply, true_and]
    rfl
  have hgrad : CpuReducer.sumOfScaled (m.memory grad) .mom .grad .mom grad.size grad.dtype m.mu .grad =
      grad.data := by
    funext i
    rw [CpuReducer.sumOfScaled_apply, if_neg fun h => nomatch h.1]
    rfl
  unfold updateMom setMemory
  rw [hmom, hgrad]

theorem updateGradient_eq : m.updateGradient grad = (m, addMom m grad) := by
  have hmom : CpuReducer.sumScaled (m.memory grad) .grad .mom grad.size grad.dtype m.mu .mom =
      m.mom := by
    funext i
    rw [CpuReducer.sumScaled_apply, if_neg fun h => nomatch h.1]
    rfl
  have hgrad : CpuReducer.sumScaled (m.memory grad) .grad .mom grad.size grad.dtype m.mu .grad =
      (addMom m grad).data := by
    funext i
    simp only [CpuReducer.sumScaled_apply, true_and]
    rfl
  unfold updateGradient setMemory
  rw [hmom, hgrad]
  rfl

/-- The compressor inside is called with the new momentum added; nothing else is done after. -/
theorem compress_eq (c : Cptr σ ρ K) : m.compress c grad =
    (c m.cptr (addMom { m with mom := nextMom m grad } grad)).map fun r =>
      ({ mom := nextMom m grad, mu := m.mu, cptr := r.1 }, r.2) := by
  unfold compress
  simp only [updateMom_eq, updateGradient_eq]
  change (c m.cptr _).bind _ = _
  cases c m.cptr (addMom { m with mom := nextMom m grad } grad) <;> rfl

end Call

/-! ### All calls

`Accumulated` says what the buffer of the momentum holds after `t` calls: the decaying sum, in
every element of the gradient.  One call takes it from `t` to `t + 1`.
-/

section Run

variable [CommSemiring K] {c : Cptr σ ρ K} {mu : K} {cptr : σ} {g : ℕ → Mem K} {size : ℕ}
  {dtype : DataType} {t : ℕ} {m : Momentum σ K}

/-- The gradients of the calls, which have one length. -/
def tensors (g : ℕ → Mem K) (size : ℕ) (dtype : DataType) (t : ℕ) : Tensor K :=
  { data := g t, size := size, dtype := dtype }

/-- What the gradients up to step `t` left. -/
structure Accumulated (mu : K) (g : ℕ → Mem K) (n t : ℕ) (m : Momentum σ K) : Prop where
  mu_eq : m.mu = mu
  mom_eq : ∀ i < n, m.mom i = decaying mu (fun j => g j i) t

theorem nextMom_eq (h : Accumulated mu g (size / getDataTypeLength dtype) t m) {i : ℕ}
    (hi : i < size / getDataTypeLength dtype) :
    nextMom m (tensors g size dtype (t + 1)) i = decaying mu (fun j => g j i) (t + 1) := by
  rw [decaying_succ, ← h.mom_eq i hi, ← h.mu_eq]
  exact if_pos hi

/-- A call adds its gradient to it. -/
theorem Accumulated.compress (h : Accumulated mu g (size / getDataTypeLength dtype) t m)
    {r : Momentum σ K × Tensor K × ρ}
    (hr : m.compress c (tensors g size dtype (t + 1)) = .ok r) :
    Accumulated mu g (size / getDataTypeLength dtype) (t + 1) r.1 := by
  rw [compress_eq] at hr
  obtain ⟨_, _, rfl⟩ := Outcome.map_eq_ok hr
  exact ⟨h.mu_eq, fun i hi => nextMom_eq h hi⟩

theorem accumulated_of_compressUpTo
    (h : (new mu cptr).compressUpTo c (tensors g size dtype) t = .ok m) :
    Accumulated mu g (size / getDataTypeLength dtype) t m := by
  induction t generalizing m with
  | zero =>
      cases h
      exact ⟨rfl, fun i _ => rfl⟩
  | succ t ih =>
      obtain ⟨m', hm', h⟩ := Outcome.bind_eq_ok h
      obtain ⟨r, hr, h⟩ := Outcome.bind_eq_ok h
      cases h
      exact (ih hm').compress hr

/-- Around a compressor that never fails all calls return. -/
theorem exists_compressUpTo (hc : ∀ s grad, ∃ r, c s grad = .ok r) (m : Momentum σ K)
    (g : ℕ → Tensor K) (t : ℕ) : ∃ m', m.compressUpTo c g t = .ok m' := by
  induction t with
  | zero => exact ⟨m, rfl⟩
  | succ t ih =>
      obtain ⟨m', hm'⟩ := ih
      obtain ⟨r, hr⟩ := hc m'.cptr (addMom { m' with mom := nextMom m' (g (t + 1)) } (g (t + 1)))
      unfold compressUpTo
      rw [hm', Outcome.ok_bind, compress_eq, hr]
      exact ⟨_, rfl⟩

/--
**Nesterov momentum.**  After steps 1 to `t` the momentum is the decaying sum of the gradients; at
step `t + 1` the compressor inside is called with the gradient and the new momentum, scaled, and of
the momentum nothing but its elements changes.
-/
theorem compress_nesterov (g : ℕ → Mem K) (size : ℕ) (dtype : DataType)
    (h : (new mu cptr).compressUpTo c (tensors g size dtype) t = .ok m) :
    m.mu = mu ∧
    (∀ i < size / getDataTypeLength dtype, m.mom i = ∑ j ∈ Finset.Icc 1 t, mu ^ (t - j) * g j i) ∧
    ∃ mom handed : Mem K,
      m.compress c (tensors g size dtype (t + 1)) =
        (c m.cptr { data := handed, size := size, dtype := dtype }).map
          (fun r => ({ mom := mom, mu := mu, cptr := r.1 }, r.2)) ∧
      (∀ i < size / getDataTypeLength dtype,
        mom i = ∑ j ∈ Finset.Icc 1 (t + 1), mu ^ (t + 1 - j) * g j i ∧
        handed i = g (t + 1) i + ∑ j ∈ Finset.Icc 1 (t + 1), mu ^ (t + 1 - j + 1) * g j i) ∧
      ∀ i, size / getDataTypeLength dtype ≤ i → mom i = m.mom i ∧ handed i = g (t + 1) i := by
  have hm := accumulated_of_compressUpTo h
  refine ⟨hm.mu_eq, hm.mom_eq, nextMom m (tensors g size dtype (t + 1)),
    (addMom { m with mom := nextMom m (tensors g size dtype (t + 1)) }
      (tensors g size dtype (t + 1))).data, ?_, fun i hi => ⟨nextMom_eq hm hi, ?_⟩,
    fun i hi => ⟨if_neg hi.not_gt, if_neg hi.not_gt⟩⟩
  · rw [compress_eq, hm.mu_eq]
    rfl
  · rw [← mul_decaying, ← nextMom_eq hm hi, ← hm.mu_eq]
    exact if_pos hi

/-- Two calls with error feedback around signs of one bit. -/
theorem compress_nesterov_two : ∃ m : Momentum (ErrorFeedback 32 ℚ × (ℕ → ℚ)) ℚ,
    (new (9 / 10) (ErrorFeedback.new 1 ⟨1, 2⟩ fun _ => (0, 0), fun _ => 1)).compressUpTo
      (ErrorFeedback.cptr (Onebit.impl 32 ℚ true)) (tensors (fun j _ => j) 8 .float32) 2 = .ok m ∧
    m.mom 1 = ∑ j ∈ (Finset.Icc 1 2 : Finset ℕ), (9 / 10 : ℚ) ^ (2 - j) * j := by
  have hc : ∀ s grad, ∃ r, ErrorFeedback.cptr (Onebit.impl 32 ℚ true) s grad = .ok r :=
    fun _ _ => ⟨_, rfl⟩
  obtain ⟨m, hm⟩ := exists_compressUpTo hc _ _ 2
  exact ⟨m, hm, (compress_nesterov _ _ _ hm).2.1 1 (by decide)⟩

end Run

end DeepInc.Compressor.Momentum
