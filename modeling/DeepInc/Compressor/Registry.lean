/-
The factories of `CompressorRegistry`.

A compressor is made from hyper-parameters for buffers of `size` bytes.  `compressor_k` is
the share of the elements that is sent, or how many when it is one or more; the factories
of top-k and random-k turn it into a number with arithmetic on `float`.
-/
import DeepInc.Compressor.ErrorFeedback
import DeepInc.Lib.Ieee

namespace DeepInc.Compressor

/-- What names the factory, as `compressor_type`. -/
inductive CompressorType
  | onebit
  | topk
  | randomk
  deriving DecidableEq, Repr

/-- `kwargs_t`, as `HyperParamFinder` reads it. -/
structure Kwargs where
  compressorType : CompressorType
  /-- `compressor_k`, a `float` -/
  compressorK : ℚ
  /-- `compressor_onebit_scaling` -/
  onebitScaling : Bool

/-- `k` of the factories of top-k and random-k, for a `factor` their check lets pass. -/
def factorK (factor : ℚ) (size : ℕ) (dtype : DataType) : ℕ :=
  if factor < 1 then
    let product := Ieee.single (factor * Ieee.single size)
    let k := ⌊Ieee.single (product / getDataTypeLength dtype)⌋₊
    if k = 0 then 1 else k
  else ⌊factor⌋₊

/-- `CompressorRegistry::Create`; `none` is a hyper-parameter that is refused. -/
def create {K : Type} (kwargs : Kwargs) (size : ℕ) (dtype : DataType) : Option (Kind K) :=
  match kwargs.compressorType with
  | .onebit => some (.onebit kwargs.onebitScaling)
  | .topk =>
    if 0 < kwargs.compressorK then some (.topk (factorK kwargs.compressorK size dtype)) else none
  | .randomk =>
    if 0 < kwargs.compressorK then some (.randomk (factorK kwargs.compressorK size dtype)) else none

end DeepInc.Compressor
