/-
The devices of a machine, and the PCIe switches they are on.

Every device is a process of its own.  The devices of one switch reduce with NCCL; the
switches of one machine reduce on the CPU, each column of devices with a root of its own.
-/
import DeepInc.Worker.TensorTable
import Mathlib.Data.List.Range

namespace DeepInc.Worker

/-- `NcclManager`, as far as the switches go. -/
structure NcclManager where
  ncclPcieSize : ℕ
  ncclPcieNum : ℕ
  deriving DecidableEq, Repr

namespace NcclManager

/-- `_nccl_pcie_size` before it is checked: an `int` stored as a `size_t`, or the default. -/
def switchSize : Option ℤ → ℕ
  | some n => (n % 2 ^ 64).toNat
  | none => 8

/-- `InitGlobalEnv`; `none` is the division by a switch size of zero. -/
def initGlobalEnv (pcieSwitchSize : Option ℤ) (localSize : ℕ) : Option NcclManager :=
  let ncclPcieSize := switchSize pcieSwitchSize
  if ncclPcieSize = 0 then none
  else
    let ncclPcieNum := localSize / ncclPcieSize
    if ncclPcieNum = 0 then some { ncclPcieSize := localSize, ncclPcieNum := 1 }
    else if localSize % ncclPcieSize ≠ 0 then some { ncclPcieSize := localSize, ncclPcieNum := 1 }
    else some { ncclPcieSize := ncclPcieSize, ncclPcieNum := ncclPcieNum }

end NcclManager

/-- `BytePSGlobal` of one device, as far as the switches go. -/
structure Device where
  localRank : ℕ
  localSize : ℕ
  /-- `NcclManager::GetSize` -/
  ncclSize : ℕ
  /-- `_reduce_roots`, when `BYTEPS_REDUCE_ROOTS` is set -/
  reduceRoots : Option (List ℤ)

namespace Device

/-- `GetPcieSwitchIndex` -/
def pcieSwitchIndex (d : Device) : ℕ := d.localRank / d.ncclSize

/-- `GetPcieSwitchNum` -/
def pcieSwitchNum (d : Device) : ℕ := d.localSize / d.ncclSize

/-- `IsCrossPcieSwitch` -/
def isCrossPcieSwitch (d : Device) : Bool := decide (d.ncclSize < d.localSize)

/-- `NcclManager::GetRoot` -/
def getRoot (d : Device) : ℕ := d.ncclSize - 1

/-- `NcclManager::GetRank` -/
def getRank (d : Device) : ℕ := d.localRank % d.ncclSize

/-- The loop of `CpuReducer::CpuReducer`, from `i` on. -/
def peersFrom (pcieSize localSize : ℕ) : ℕ → ℕ → List ℕ
  | 0, _ => []
  | fuel + 1, i =>
    if i < localSize then i :: peersFrom pcieSize localSize fuel (i + pcieSize) else []

/-- The peers of `CpuReducer::CpuReducer`; every iteration goes on by one at least. -/
def reducerPeers (d : Device) : List ℕ :=
  peersFrom d.ncclSize d.localSize d.localSize (d.localRank % d.ncclSize)

/-- `CpuReducer::isRoot`: the last peer is. -/
def isCpuReducerRoot (d : Device) : Bool := d.reducerPeers.getLast? == some d.localRank

end Device

/-- The characters of `std::to_string`, each a `char`. -/
def decimal (n : ℕ) : List ℤ := (Nat.toDigits 10 n).map fun c => (c.toNat : ℤ)

/-- `Hash_DJB2`, of the characters it finds. -/
def hashDJB2 (str : List ℤ) : ℕ :=
  str.foldl (fun hash c => toUInt64 (hash * 2 ^ 5 + hash + c)) 5381

/-- `GetReduceRootByKey`; `none` is the division by the size of an empty `_reduce_roots`. -/
def getReduceRootByKey (roots : List ℤ) (key : ℕ) : Option ℤ :=
  roots[hashDJB2 (decimal key) % roots.length]?

end DeepInc.Worker
