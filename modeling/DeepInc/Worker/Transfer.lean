/-
Sums over the devices of a machine, and copies between devices and host.

The `S` devices of a switch sum a partition with NCCL, each keeping a chunk of the elements;
the last keeps what is left over as well.  Each copies its chunk to the host.  With several
switches the last device of every column then sums the chunk on the host.  On the way back
each device copies its chunk from the host, and NCCL hands every chunk to all.

A NCCL call takes effect on all devices at once, and does what NCCL documents.
-/
import DeepInc.Common.CpuReducer
import DeepInc.Lib.ByteMemory
import DeepInc.Worker.Topology
import Mathlib.Algebra.BigOperators.Group.Finset.Basic
import Mathlib.Data.Finset.Range

namespace DeepInc.Worker

open ByteMemory Tiling

/-- An element, as the bytes it takes. -/
abbrev Element (β : Type) (dtype : DataType) : Type := Fin (getDataTypeLength dtype) → β

variable {β : Type}

/-! ### Memory -/

/-- The two allocations on a device a task points into. -/
inductive Buffer
  | tensor
  | output
  deriving DecidableEq, Repr

/-- A byte of an allocation. -/
structure Pointer where
  buffer : Buffer
  addr : ℕ
  deriving DecidableEq, Repr

/-- The memory of one device. -/
abbrev DeviceMemory (β : Type) := Buffer → Memory β

/-- The buffers shared by the devices of a machine, one for every switch. -/
abbrev HostMemory (β : Type) := ℕ → Memory β

/-- A task, and where its pointers point to. -/
structure DeviceTask extends TensorTableEntry where
  /-- where `output->data()` is; `tensor->data()` is where `gpu_ptr` points to -/
  outputData : Buffer
  /-- `tensor == output` -/
  sameTensor : Bool
  same : sameTensor = true → outputData = .tensor

/-- `CPU_DEVICE_ID` -/
def cpuDeviceId : ℤ := -1

/-- `tensor->size() / tensor->shape().num_elements()` -/
def Tensor.unitLen (t : Tensor) : ℕ := t.size / t.numElements

/-! ### What a device keeps -/

/-- `num_elem_per_gpu` -/
def numElemPerGpu (d : Device) (len unitLen : ℕ) : ℕ := len / d.ncclSize / unitLen

/-- `left_elem` -/
def leftElem (d : Device) (len unitLen : ℕ) : ℕ :=
  len / unitLen - numElemPerGpu d len unitLen * d.ncclSize

/-- `copy_offset` and `copy_len` of the scatter scheme. -/
def scatterRange (d : Device) (len unitLen : ℕ) : Range :=
  let left := leftElem d len unitLen
  let copyLen := numElemPerGpu d len unitLen * unitLen
  { start := d.getRank * numElemPerGpu d len unitLen * unitLen
    len := if left ≠ 0 ∧ d.getRoot = d.getRank then copyLen + left * unitLen else copyLen }

/-- `copy_offset` and `copy_len`. -/
def copyRange (d : Device) (key len unitLen : ℕ) : Option Range :=
  match d.reduceRoots with
  | none => some (scatterRange d len unitLen)
  | some roots => do
    let root ← getReduceRootByKey roots key
    some { start := 0, len := if root = d.getRank then len else 0 }

/-! ### NCCL -/

/-- The collectives that are called. -/
inductive NcclOp
  | reduceScatter
  | reduce (root : ℤ)
  | allGather
  | broadcast (root : ℤ)
  deriving DecidableEq, Repr

/-- A call on one device. -/
structure NcclCall where
  op : NcclOp
  sendbuff : Pointer
  recvbuff : Pointer
  count : ℕ
  dtype : DataType
  deriving DecidableEq, Repr

/-- The two stages that call NCCL. -/
inductive NcclStage
  | reduce
  | broadcast
  deriving DecidableEq, Repr

/-- `num_elem_per_gpu`, `left_elem` and `nccl_root` of `PostNcclCalls`. -/
def ncclSplit (d : Device) (key len unitLen : ℕ) : Option (ℕ × ℕ × ℤ) :=
  match d.reduceRoots with
  | none => some (numElemPerGpu d len unitLen, leftElem d len unitLen, d.getRoot)
  | some roots => (getReduceRootByKey roots key).map fun root => (0, len / unitLen, root)

/-- The tensor of a stage, and where its data is on the device. -/
def ncclTensor (task : DeviceTask) : NcclStage → Option Tensor × Buffer
  | .reduce => (task.tensor, .tensor)
  | .broadcast => (task.output, task.outputData)

/-- `PostNcclCalls` -/
def postNcclCalls (d : Device) (task : DeviceTask) (stage : NcclStage) : Option (List NcclCall) := do
  let tensor ← (ncclTensor task stage).1
  guard (tensor.size % tensor.numElements = 0)
  let unitLen := tensor.unitLen
  let data := if task.device = cpuDeviceId then .tensor else (ncclTensor task stage).2
  let p : Pointer := ⟨data, task.offset⟩
  let (numElem, left, root) ← ncclSplit d task.key task.len unitLen
  guard (task.tensorName ≠ "")
  let chunk := d.getRank * numElem * unitLen
  let rest := task.len - left * unitLen
  match stage with
  | .reduce =>
    -- to the output, except that of a CPU tensor
    let outP : Pointer :=
      if task.device = cpuDeviceId ∧ task.sameTensor then p else ⟨task.outputData, task.offset⟩
    some
      ((if numElem ≠ 0 then
        [⟨.reduceScatter, p, ⟨outP.buffer, outP.addr + chunk⟩, numElem, tensor.dtype⟩] else []) ++
      (if left ≠ 0 then
        [⟨.reduce root, ⟨p.buffer, p.addr + rest⟩, ⟨outP.buffer, outP.addr + rest⟩, left,
          tensor.dtype⟩] else []))
  | .broadcast =>
    some
      ((if numElem ≠ 0 then
        [⟨.allGather, ⟨p.buffer, p.addr + chunk⟩, p, numElem, tensor.dtype⟩] else []) ++
      (if left ≠ 0 then
        [⟨.broadcast root, ⟨p.buffer, p.addr + rest⟩, ⟨p.buffer, p.addr + rest⟩, left,
          tensor.dtype⟩] else []))

section Collectives

variable [∀ dtype, AddCommMonoid (Element β dtype)]

/-- What one collective leaves in the memory of device `r`. -/
def collective (size : ℕ) (calls : ℕ → NcclCall) (mem : ℕ → DeviceMemory β) (r : ℕ) :
    DeviceMemory β :=
  let c := calls r
  -- element `i` of what device `s` sends
  let sent (s i : ℕ) : Element β c.dtype :=
    elems _ (mem s (calls s).sendbuff.buffer) (calls s).sendbuff.addr i
  let put (count : ℕ) (f : ℕ → Element β c.dtype) : DeviceMemory β :=
    Function.update (mem r) c.recvbuff.buffer
      (fill (mem r c.recvbuff.buffer) c.recvbuff.addr count f)
  match c.op with
  | .reduceScatter => put c.count fun i => ∑ s ∈ Finset.range size, sent s (r * c.count + i)
  | .reduce root =>
    if root = r then put c.count fun i => ∑ s ∈ Finset.range size, sent s i else mem r
  | .allGather => put (size * c.count) fun i => sent (i / c.count) (i % c.count)
  | .broadcast root => put c.count fun i => sent root.toNat i

/--
The calls of all devices, from the first on; what device 0 posted is the first list.  Calls
that do not match do not return.
-/
def runCalls (size : ℕ) :
    List NcclCall → (ℕ → List NcclCall) → (ℕ → DeviceMemory β) → Option (ℕ → DeviceMemory β)
  | [], posted, mem => if ∀ r < size, posted r = [] then some mem else none
  | c :: cs, posted, mem =>
    let calls := fun r => (posted r).headD c
    if ∀ r < size, posted r ≠ [] ∧ (calls r).op = c.op ∧ (calls r).count = c.count ∧
        (calls r).dtype = c.dtype then
      runCalls size cs (fun r => (posted r).tail) (collective size calls mem)
    else none

/-- A NCCL stage on the devices of a switch; one device alone does not call NCCL. -/
def runNccl (size : ℕ) (device : ℕ → Device) (task : ℕ → DeviceTask) (stage : NcclStage)
    (mem : ℕ → DeviceMemory β) : Option (ℕ → DeviceMemory β) :=
  if 1 < size then do
    guard (∀ r < size, (postNcclCalls (device r) (task r) stage).isSome)
    let posted := fun r => (postNcclCalls (device r) (task r) stage).getD []
    runCalls size (posted 0) posted mem
  else some mem

end Collectives

/-! ### Copies between device and host -/

/-- The shared buffer a device copies to: that of its switch. -/
def pcieCpubuff (d : Device) : ℕ := if d.isCrossPcieSwitch then d.pcieSwitchIndex else 0

/-- `cpubuff`: that of the last switch. -/
def cpubuff (d : Device) : ℕ := d.pcieSwitchNum - 1

/-- The tensor that is copied to the host: after a reduce by NCCL the output. -/
def copiedTensor (d : Device) (task : DeviceTask) : Option Tensor × Buffer :=
  if 1 < d.ncclSize then (task.output, task.outputData) else (task.tensor, .tensor)

/-- `RunCopyDevice2HostLoopOnce`, of a task: the bytes it copies, and the host memory after. -/
def runCopyDevice2Host (d : Device) (task : DeviceTask) (mem : DeviceMemory β)
    (host : HostMemory β) : Option (Range × HostMemory β) := do
  let tensor ← (copiedTensor d task).1
  let p := if task.device = cpuDeviceId then .tensor else (copiedTensor d task).2
  let r ← copyRange d task.key task.len tensor.unitLen
  let a := task.offset + r.start
  some (⟨a, r.len⟩, Function.update host (pcieCpubuff d)
    (memcpy (host (pcieCpubuff d)) a (mem p) a r.len))

/-- `CopyHost2Device`, of a task: the memory of the device after. -/
def copyHost2Device (d : Device) (task : DeviceTask) (host : HostMemory β)
    (mem : DeviceMemory β) : Option (DeviceMemory β) := do
  let tensor ← task.output
  let gpuAddr := if task.device = cpuDeviceId then .tensor else task.outputData
  let r ← copyRange d task.key task.len tensor.unitLen
  let a := task.offset + r.start
  some (Function.update mem gpuAddr (memcpy (mem gpuAddr) a (host (cpubuff d)) a r.len))

/-! ### Between host and server -/

/-- `vals` of `RunPushLoopOnce`, where nothing is compressed: the bytes of the partition. -/
def pushVals (d : Device) (task : DeviceTask) (host : HostMemory β) : Memory β :=
  fun x => host (cpubuff d) (task.offset + x)

/-- `RunPullLoopOnce`, once it is answered: `vals` is written to the partition. -/
def runPull (d : Device) (task : DeviceTask) (vals : Memory β) (host : HostMemory β) :
    HostMemory β :=
  Function.update host (cpubuff d) (memcpy (host (cpubuff d)) task.offset vals 0 task.len)

/-! ### The sum over the switches -/

/-- `RunPcieReduceLoopOnce`, of a task: only the root of a column sums. -/
def runPcieReduce [∀ dtype, Add (Element β dtype)] (d : Device) (task : DeviceTask)
    (host : HostMemory β) : Option (HostMemory β) := do
  guard d.isCrossPcieSwitch
  if d.isCpuReducerRoot then
    let tensor ← task.tensor
    let r := scatterRange d task.len tensor.unitLen
    let totalOffset := task.offset + r.start
    let dst := elems (getDataTypeLength tensor.dtype) (host (cpubuff d)) totalOffset
    let src := elems (getDataTypeLength tensor.dtype) (host 0) totalOffset
    some (Function.update host (cpubuff d)
      (fill (host (cpubuff d)) totalOffset (r.len / getDataTypeLength tensor.dtype)
        (CpuReducer.sum dst src r.len tensor.dtype)))
  else some host

end DeepInc.Worker
