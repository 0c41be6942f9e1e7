/-
The stage that compresses a partition.

The compressor of a partition is made by `InitTensor` for the aligned length of the
partition, and compresses the partition as it is.
-/
import DeepInc.Worker.Context

namespace DeepInc.Worker

open Compressor

variable {K : Type} [Field K] [LinearOrder K] [FloorSemiring K]

/-- `task->compressor`. -/
def Context.compressorOf (context : Context K) (task : TensorTableEntry) :
    Option (CompressorEntry K) :=
  task.compressor.bind fun i => context.compressorList[i]?

/--
`RunCompressLoopOnce`, for a task of a tensor of type `dtype` whose data is `grad`; `rng` and
`buf` are what the compressor works on.
-/
def runCompress (context : Context K) (dtype : DataType) (task : TensorTableEntry) (rng : Rng)
    (buf : Mem (Cell (scalarBits dtype) K)) (grad : Mem K) :
    Except Fault (Compressed (scalarBits dtype) K) :=
  match context.compressorOf task with
  | none => .error .check
  | some c =>
    let len := int32 task.len
    match (c.kind.impl (scalarBits dtype) c.size).compress rng buf grad
        (len / getDataTypeLength dtype) with
    | .error _ => .error .check
    | .ok (_, data, size) => do
      check (decide (size ≤ len))
      .ok { data := data, size := size }

end DeepInc.Worker
