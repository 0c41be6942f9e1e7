/-
`Momentum` and `NesterovMomentumCompressor`.

Two sums on the CPU, which read and write the momentum and the gradient through their pointers, put
the momentum into the gradient before the compressor inside is called.
-/
import DeepInc.Compressor.ErrorFeedback

namespace DeepInc.Compressor

/-- A `tensor_t` of numbers. -/
structure Tensor (K : Type) where
  data : Mem K
  size : ℕ
  dtype : DataType

/--
`Compress` of a compressor with states `σ` and results `ρ`; the second component is what it leaves
of the gradient.
-/
abbrev Cptr (σ ρ K : Type) := σ → Tensor K → Except Fault (σ × Tensor K × ρ)

/-- A `VanillaErrorFeedbackCompressor`, and the learning rates its calls will read. -/
def ErrorFeedback.cptr {w : ℕ} {K : Type} [Field K] (c : Impl w K) :
    Cptr (ErrorFeedback w K × (ℕ → K)) (Compressed w K) K := fun (e, lrs) grad => do
  let len := grad.size / getDataTypeLength grad.dtype
  let corrected := (e.updateGradient (lrs 0) grad.data len).2
  let (e, compressed) ← e.compress c (lrs 0) grad.data len
  .ok ((e, fun t => lrs (t + 1)), { grad with data := corrected }, compressed)

/-- A `Momentum`, with the state of the compressor it wraps. -/
structure Momentum (σ K : Type) where
  mom : Mem K
  mu : K
  cptr : σ

namespace Momentum

variable {σ ρ K : Type}

/-- `_mom.get()` and `grad.data`. -/
inductive Pointer
  | mom
  | grad
  deriving DecidableEq, Repr

/-- The constructor, which clears the momentum. -/
def new [Zero K] (mu : K) (cptr : σ) : Momentum σ K := { mom := fun _ => 0, mu := mu, cptr := cptr }

/-- What the pointers point to. -/
def memory (m : Momentum σ K) (grad : Tensor K) : Pointer → Mem K
  | .mom => m.mom
  | .grad => grad.data

/-- What a call leaves when it leaves `x` behind the pointers. -/
def setMemory (m : Momentum σ K) (grad : Tensor K) (x : Pointer → Mem K) :
    Momentum σ K × Tensor K :=
  ({ m with mom := x .mom }, { grad with data := x .grad })

variable [Add K] [Mul K]

/-- `NesterovMomentumCompressor::UpdateMom` -/
def updateMom (m : Momentum σ K) (grad : Tensor K) : Momentum σ K × Tensor K :=
  m.setMemory grad
    (CpuReducer.sumOfScaled (m.memory grad) .mom .grad .mom grad.size grad.dtype m.mu)

/-- `NesterovMomentumCompressor::UpdateGradient` -/
def updateGradient (m : Momentum σ K) (grad : Tensor K) : Momentum σ K × Tensor K :=
  m.setMemory grad (CpuReducer.sumScaled (m.memory grad) .grad .mom grad.size grad.dtype m.mu)

/-- `Momentum::Compress` -/
def compress (c : Cptr σ ρ K) (m : Momentum σ K) (grad : Tensor K) :
    Except Fault (Momentum σ K × Tensor K × ρ) := do
  let (m, grad) := m.updateMom grad
  let (m, grad) := m.updateGradient grad
  let (cptr, grad, compressed) ← c m.cptr grad
  .ok ({ m with cptr := cptr }, grad, compressed)

/-- Calls of `Compress` with `g 1`, …, `g t`, one after another. -/
def compressUpTo (c : Cptr σ ρ K) (m : Momentum σ K) (g : ℕ → Tensor K) :
    ℕ → Except Fault (Momentum σ K)
  | 0 => .ok m
  | t + 1 => do
    let m ← compressUpTo c m g t
    let (m, _) ← m.compress c (g (t + 1))
    .ok m

end Momentum

end DeepInc.Compressor
