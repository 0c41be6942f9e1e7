/-
`VanillaErrorFeedbackCompressor`.

What a compressor drops is kept in an error buffer and added to the next gradient, scaled
by the quotient of the learning rates, which are read anew at every call.
-/
import DeepInc.Compressor.Dithering
import DeepInc.Compressor.Onebit
import DeepInc.Compressor.Sparse

namespace DeepInc.Compressor

/-- The compressors, as the registry makes them. -/
inductive Kind (K : Type)
  | onebit (useScale : Bool)
  | topk (k : ℕ)
  | randomk (k : ℕ)
  | dithering (p : Dithering.Params K)

section Kind

variable {w : ℕ} {K : Type} [Field K] [LinearOrder K] [FloorSemiring K]

/-- The compressor, for buffers of `size` bytes. -/
def Kind.impl (w size : ℕ) : Kind K → Impl w K
  | onebit useScale => Onebit.impl w K useScale
  | topk k => Topk.impl w K size k
  | randomk k => Randomk.impl w K size k
  | dithering p => Dithering.impl w p size

/-- The `BPS_CHECK`s of the compressor, for gradients of `len` elements. -/
def Kind.Checks (len : ℕ) : Kind K → Prop
  | topk k | randomk k => k ≤ len / 2
  | onebit _ | dithering _ => True

end Kind

/-- The `tensor_t` a call of `Compress` returns. -/
structure Compressed (w : ℕ) (K : Type) where
  data : Mem (Cell w K)
  size : ℕ

/-- A `VanillaErrorFeedbackCompressor`, with the state of the compressor it wraps. -/
structure ErrorFeedback (w : ℕ) (K : Type) where
  error : Mem K
  /-- `_pre_lr` -/
  preLr : K
  rng : Rng
  buf : Mem (Cell w K)

namespace ErrorFeedback

variable {w : ℕ} {K : Type} [Field K]

/-- The constructor: the learning rate is read a first time, and the error is zero. -/
def new (lr : K) (rng : Rng) (buf : Mem (Cell w K)) : ErrorFeedback w K :=
  { error := fun _ => 0, preLr := lr, rng := rng, buf := buf }

/-- `VanillaErrorFeedbackCompressor::UpdateGradient`, which reads the learning rate `lr`. -/
def updateGradient (e : ErrorFeedback w K) (lr : K) (grad : Mem K) (len : ℕ) :
    ErrorFeedback w K × Mem K :=
  let alpha := e.preLr / lr
  ({ e with preLr := lr }, fun i => if i < len then grad i + alpha * e.error i else grad i)

/-- `ErrorFeedback::Compress`. -/
def compress (c : Impl w K) (e : ErrorFeedback w K) (lr : K) (grad : Mem K) (len : ℕ) :
    Except Fault (ErrorFeedback w K × Compressed w K) := do
  let (e, grad) := e.updateGradient lr grad len
  let (rng, buf, size) ← c.compress e.rng e.buf grad len
  let error ← c.fastUpdateError e.error grad buf size
  .ok ({ e with error := error, rng := rng, buf := buf }, { data := buf, size := size })

/-- `ErrorFeedback::Decompress`. -/
def decompress (c : Impl w K) (dst : Mem K) (compressed : Compressed w K) :
    Except Fault (Mem K) :=
  c.decompress dst compressed.data compressed.size

/-- A gradient and the learning rate at its step. -/
structure Step (K : Type) where
  lr : K
  grad : Mem K

/-- Calls of `Compress`, one after another. -/
def compressAll (c : Impl w K) (len : ℕ) : ErrorFeedback w K → List (Step K) →
    Except Fault (ErrorFeedback w K × List (Compressed w K))
  | e, [] => .ok (e, [])
  | e, step :: steps => do
    let (e, compressed) ← e.compress c step.lr step.grad len
    let (e, rest) ← compressAll c len e steps
    .ok (e, compressed :: rest)

end ErrorFeedback

end DeepInc.Compressor
