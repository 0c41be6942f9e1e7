/-
How a tensor is cut into partitions.

`PartitionTensor` and two loops of `InitTensor` go through the bytes of a tensor in cuts of
at most the partition bound.  They differ in the type the length of a cut is stored in, and
what is stored is what is added up.
-/
import DeepInc.Lib.Tiling
import DeepInc.Worker.TensorTable

namespace DeepInc.Worker

open Tiling

/-! ### The partition bound -/

/-- `DivUp`, on `size_t`. -/
def divUp (x y : ℕ) : ℕ := uint64 (x + (y - 1)) / y

/-- `RoundUp`, on `size_t`. -/
def roundUp (x y : ℕ) : ℕ := uint64 (divUp x y * y)

/--
`_partition_bytes` after `Init`: what `atoi` makes of `BYTEPS_PARTITION_BYTES`, or the
default, rounded up to whole pages.
-/
def initPartitionBytes (env : Option ℤ) (localSize pagesize : ℕ) : ℕ :=
  let partitionBytes := match env with
    | some n => (n % 2 ^ 32).toNat
    | none => 4096000
  uint32 (roundUp partitionBytes (localSize * pagesize))

/-! ### The cuts -/

/-- The loop over the cuts, from byte `accumulated` on; `stored` is what a length is stored as. -/
def cutLoop (stored : ℕ → ℕ) (size bound : ℕ) : ℕ → ℕ → Except Fault (List Range)
  | 0, _ => .error .hang
  | fuel + 1, accumulated =>
    if accumulated < size then do
      let len := stored (if bound < size - accumulated then bound else size - accumulated)
      let rest ← cutLoop stored size bound fuel (uint64 (accumulated + len))
      .ok ({ start := accumulated, len := len } :: rest)
    else .ok []

/-- All cuts; a loop that cuts off no byte does not end. -/
def cuts (stored : ℕ → ℕ) (size bound : ℕ) : Except Fault (List Range) :=
  cutLoop stored size bound (size + 1) 0

/-- The bytes of an entry. -/
def TensorTableEntry.range (e : TensorTableEntry) : Range := { start := e.offset, len := e.len }

/--
`PartitionTensor`, of a tensor whose context has `compressors` compressors.  The key is
assigned later.
-/
def partitionTensor (bound compressors : ℕ) (entry : TensorTableEntry) :
    Except Fault (List TensorTableEntry) := do
  check entry.counterPtr.isSome
  match entry.tensor <|> entry.output with
  | none => .error .nullPointer
  | some tensor => do
    let ranges ← cuts uint32 tensor.size bound
    .ok (ranges.mapIdx fun i r =>
      { entry with
        tensorName := entry.tensorName ++ "_" ++ toString i
        offset := uint32 r.start
        len := r.len
        compressor := if compressors = 0 then none else some i })

end DeepInc.Worker
