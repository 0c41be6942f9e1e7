/-
The rings of a machine.

`NcclManager` makes a communicator of the devices of a PCIe switch, and `CpuReducer` one of the
devices that have the same place on their switches.  The last member of a communicator is its
root.
-/
import DeepInc.Worker.Topology

namespace DeepInc.Worker

/-- `BytePSCommSocket`, as far as its members go. -/
structure CommSocket where
  members : List ℕ
  root : ℕ

/-- The constructor from another communicator; `none` is `back()` of no members. -/
def CommSocket.new (comm : CommSocket) (members : List ℕ) : Option CommSocket :=
  let members := if 0 < members.length then members else comm.members
  members.getLast?.map fun root => { members := members, root := root }

namespace NcclManager

/-- The device of a rank, whose `_nccl_size` is set in `ConstructRings`. -/
def device (m : NcclManager) (localSize : ℕ) (roots : Option (List ℤ)) (localRank : ℕ) : Device :=
  { localRank := localRank, localSize := localSize, ncclSize := m.ncclPcieSize, reduceRoots := roots }

/-- The peers of `ConstructRings`. -/
def peers (m : NcclManager) (localRank : ℕ) : List ℕ :=
  let firstPeer := localRank / m.ncclPcieSize * m.ncclPcieSize
  List.range' firstPeer m.ncclPcieSize

/-- `_signal_comm` -/
def signalComm (m : NcclManager) (globalComm : CommSocket) (localRank : ℕ) : Option CommSocket :=
  globalComm.new (m.peers localRank)

/-- `IsSignalRoot` -/
def isSignalRoot (signalComm : CommSocket) (localRank : ℕ) : Bool :=
  decide (signalComm.root = localRank)

end NcclManager

/-- `_comm` of the `CpuReducer` of a worker. -/
def Device.reducerComm (d : Device) (comm : CommSocket) : Option CommSocket :=
  comm.new d.reducerPeers

end DeepInc.Worker
