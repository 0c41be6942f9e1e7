/-
The tensors a worker knows.

A tensor is declared once, which gives it a number, and initialised once, which gives every
partition a key: the number shifted by 16 bits plus the position of the partition.
-/
import DeepInc.Compressor.Registry
import DeepInc.Worker.Partition

namespace DeepInc.Worker

open Compressor

/-- A compressor of `compressor_list`, and the bytes its buffers have. -/
structure CompressorEntry (K : Type) where
  kind : Kind K
  size : ℕ

/-- `BytePSContext`. -/
structure Context (K : Type) where
  initialized : Bool
  tensorName : String
  /-- `uint64_t` -/
  declaredKey : ℕ
  /-- of `uint64_t` -/
  keyList : List ℕ
  buffLen : ℕ
  compressorList : List (CompressorEntry K)
  kwargs : Option Kwargs

/-- What `BytePSGlobal::Init` reads from the environment. -/
structure Config where
  /-- `_partition_bytes`, a `uint32_t` -/
  partitionBytes : ℕ
  /-- `_min_compress_bytes`, a `uint32_t` -/
  minCompressBytes : ℕ
  isDistributed : Bool
  isRootDevice : Bool

variable {K : Type}

/-! ### Initialising a tensor -/

/-- The keys of `n` partitions. -/
def keysFrom (declaredKey n : ℕ) : List ℕ :=
  let startKey := uint64 (declaredKey * 2 ^ 16)
  (List.range n).map fun i => uint64 (startKey + i)

/-- The loop of `InitTensor` over the keys. -/
def initKeys (declaredKey size bound : ℕ) : Except Fault (List ℕ) := do
  let parts ← cuts id size bound
  .ok (keysFrom declaredKey parts.length)

/-- `CompressorRegistry::Create` for every partition. -/
def createAll (kwargs : Kwargs) (dtype : DataType) :
    List Tiling.Range → Except Fault (List (CompressorEntry K))
  | [] => .ok []
  | r :: rs => do
    let size := align r.len dtype
    match create kwargs size dtype with
    | none => .error .check
    | some kind => do
      let rest ← createAll kwargs dtype rs
      .ok ({ kind := kind, size := size } :: rest)

/-- The compressors of a tensor: only the root device of a distributed job makes any. -/
def initCompressors (cfg : Config) (kwargs : Option Kwargs) (dtype : DataType)
    (lens : List Tiling.Range) : Except Fault (List (CompressorEntry K)) :=
  match kwargs with
  | some kwargs =>
    if cfg.isDistributed && cfg.isRootDevice then createAll kwargs dtype lens else .ok []
  | none => .ok []

/--
`InitTensor`, which also opens the shared memory and pushes every partition to its server.
-/
def initTensor (cfg : Config) (context : Context K) (size : ℕ) (dtype : DataType) :
    Except Fault (Context K) :=
  if context.initialized then .ok context
  else do
    check (decide (0 < size))
    let bound := cfg.partitionBytes
    let keyList ← initKeys context.declaredKey size bound
    check (decide (0 < keyList.length))
    check (decide (keyList.length = uint64 (size + bound - 1) / bound))
    let kwargs := if size < cfg.minCompressBytes then none else context.kwargs
    let lens ← cuts int32 size bound
    let compressors ← initCompressors cfg kwargs dtype lens
    check (decide (uint64 ((lens.map (·.len)).sum) = size))
    check (decide (lens.length = keyList.length))
    .ok { context with
      initialized := true
      keyList := keyList
      buffLen := size
      compressorList := compressors
      kwargs := kwargs }

/-! ### Declaring a tensor -/

/-- `BytePSGlobal`, as far as tensors go. -/
structure Global (K : Type) where
  /-- `_name_to_cxt`, in the order of the declarations -/
  contexts : List (Context K)
  /-- `next_key_`, an `unsigned int` -/
  nextKey : ℕ
  declaredTensors : List String

namespace Global

/-- Before the first declaration. -/
def init : Global K := { contexts := [], nextKey := 0, declaredTensors := [] }

/-- `_name_to_cxt.find(name)`. -/
def find (g : Global K) (name : String) : Option (Context K) :=
  g.contexts.find? fun c => c.tensorName = name

/-- `BytePSGlobal::IsTensorDeclared`. -/
def isTensorDeclared (g : Global K) (name : String) : Bool × Global K :=
  if (g.find name).isSome then (true, g)
  else
    let context : Context K :=
      { initialized := false, tensorName := name, declaredKey := g.nextKey, keyList := [],
        buffLen := 0, compressorList := [], kwargs := none }
    (false,
      { contexts := g.contexts ++ [context]
        nextKey := uint32 (g.nextKey + 1)
        declaredTensors :=
          if name ∈ g.declaredTensors then g.declaredTensors else g.declaredTensors ++ [name] })

/-- What is called for a tensor. -/
inductive Call
  | isTensorDeclared (name : String)
  /-- `InitTensor(GetContextFromName(name), size, dtype, ...)` -/
  | initTensor (name : String) (size : BitVec 64) (dtype : DataType)
  /-- `RegisterCompressor(name, kwargs)` -/
  | registerCompressor (name : String) (kwargs : Kwargs)

/-- `_name_to_cxt[name]` is written. -/
def update (g : Global K) (context : Context K) : Global K :=
  { g with contexts := g.contexts.map fun c =>
      if c.tensorName = context.tensorName then context else c }

/-- One call. -/
def step (cfg : Config) (g : Global K) : Call → Except Fault (Global K)
  | .isTensorDeclared name => .ok (g.isTensorDeclared name).2
  | .initTensor name size dtype =>
    match g.find name with
    | none => .error .check
    | some context => (Worker.initTensor cfg context size.toNat dtype).map g.update
  | .registerCompressor name kwargs =>
    match g.find name with
    | none => .error .check
    | some context => .ok (g.update { context with kwargs := some kwargs })

/-- All keys in use. -/
def keys (g : Global K) : List ℕ := g.contexts.flatMap (·.keyList)

end Global

end DeepInc.Worker
