/-
From the devices of all machines to the devices of all machines.

On every machine the devices of a switch sum a partition and copy it to the host, which pushes it
to the server.  The server sums the pushes of a round, and answers the pulls with the sum; what
is delivered to a machine is written to its host, and its devices copy it back.  What every
device then holds is the sum over the devices of all machines, whatever order the requests of
the machines arrive in, as long as the next round of the server waits for the pulls of this one
and for their delivery.  This file puts the three parts together.

It is done twice.  A `Cluster` has a machine take its stages one after another, so that what a
machine does to a partition is two functions, `toHost` and `fromHost`, with the server between
them.  In the second half the loops of the devices go on in any order that
`Proofs/Worker/Exchange.lean` allows, and the partition is worked on at any time between taking
its task and handing it back.

Both halves are about a key without a compressor and a server that runs the rounds of all
machines together and takes the requests in the order they come in.  The devices of a machine
are on one switch, a tensor in the memory of the host is reduced in place, and where reduce roots
are named they are devices of the machine.
-/
import DeepInc.Proofs.Server.Deliveries
import DeepInc.Proofs.Worker.Exchange

namespace DeepInc

open ByteMemory Transition Worker

variable {β κ : Type}

/-- The machines that reduce a partition, with what their devices hold in every round. -/
structure Cluster (β : Type) where
  /-- devices of a machine, all on one switch -/
  devices : ℕ
  roots : Option (List ℤ)
  tensor : Tensor
  key : ℕ
  offset : ℕ
  /-- elements of the partition -/
  elements : ℕ
  task : ℕ → ℕ → DeviceTask
  /-- the memory of the devices of a machine when a round begins -/
  memory : ℕ → ℕ → ℕ → DeviceMemory β
  /-- what is in the shared buffers then, and the order the devices copy to them in -/
  host : ℕ → ℕ → HostMemory β
  order : ℕ → ℕ → List ℕ
  devices_pos : 0 < devices
  elements_pos : 0 < elements
  roots_ne : roots ≠ some []
  roots_lt : ∀ l ∈ roots, ∀ r ∈ l, 0 ≤ r ∧ r < (devices : ℤ)
  partition : ∀ w, SamePartition (task w) tensor key offset elements
  inPlace : ∀ w, InPlaceOnCpu devices (task w)
  order_perm : ∀ w round, (order w round).Perm (List.range devices)

namespace Cluster

section Machine

variable [∀ dtype, AddCommMonoid (Element β dtype)] (c : Cluster β)

/-- The element of the tensor a device holds when a round begins. -/
def gradient (w round d j : ℕ) : Element β c.tensor.dtype :=
  devElems c.tensor c.offset (c.memory w round d) .tensor j

/-- The root of a machine, which talks to the server. -/
def root : Device := deviceOf c.devices c.devices c.roots 0

/-- REDUCE and COPYD2H of a machine: its host memory. -/
def toHost (w round : ℕ) : Option (HostMemory β) := do
  let mem ← runNccl c.devices (deviceOf c.devices c.devices c.roots) (c.task w) .reduce
    (c.memory w round)
  let copied ← runCopyDevice2Hosts c.devices c.roots (c.task w) mem (c.order w round)
    (c.host w round)
  some copied.2

/-- COPYH2D and BROADCAST of a machine: the memory of its devices. -/
def fromHost (w : ℕ) (host : HostMemory β) (mem : ℕ → DeviceMemory β) :
    Option (ℕ → DeviceMemory β) := do
  let mem ← copyHost2Devices c.devices c.roots (c.task w) host mem
  runNccl c.devices (deviceOf c.devices c.devices c.roots) (c.task w) .broadcast mem

omit [∀ dtype, AddCommMonoid (Element β dtype)] in
theorem cpubuff_root : cpubuff c.root = 0 := by
  unfold cpubuff Device.pcieSwitchNum root deviceOf
  dsimp only
  rw [Nat.div_self c.devices_pos]

/-- The host of a machine gets the sum over its devices, and that is what is pushed. -/
theorem toHost_eq (w round : ℕ) : ∃ host, c.toHost w round = some host ∧ ∀ j < c.elements,
    elems _ (pushVals c.root (c.task w 0) host) 0 j =
      ∑ d ∈ Finset.range c.devices, c.gradient w round d j := by
  obtain ⟨root, hroot, hbound⟩ := exists_chosenRoot c.roots_ne c.roots_lt c.key
  obtain ⟨mem, writes, host, hnccl, hcopy, hsum, -⟩ :=
    sumsOnHost_of_inPlace (β := β) (c.partition w) hroot c.devices_pos hbound (c.inPlace w)
      (c.memory w round) (c.host w round) (c.order w round) (c.order_perm w round)
  refine ⟨host, ?_, fun j hj => ?_⟩
  · unfold toHost
    rw [hnccl, Option.bind_eq_bind, Option.bind_some, hcopy]
    rfl
  · refine Eq.trans ?_ (hsum j hj)
    funext k
    unfold elems elem pushVals hostElems
    rw [c.cpubuff_root, (c.partition w).offset 0, Nat.zero_add]
    unfold elems elem
    rw [Nat.add_assoc]

/-- What is pulled is handed to every device. -/
theorem fromHost_runPull (w : ℕ) (vals : Memory β) (host : HostMemory β)
    (mem : ℕ → DeviceMemory β) :
    ∃ mem', c.fromHost w (runPull c.root (c.task w 0) vals host) mem = some mem' ∧
      ∀ d < c.devices, ∀ j < c.elements,
        devElems c.tensor c.offset (mem' d) (c.task w d).outputData j = elems _ vals 0 j := by
  obtain ⟨root, hroot, hbound⟩ := exists_chosenRoot c.roots_ne c.roots_lt c.key
  obtain ⟨mem₁, mem', hcopy, hnccl, hbytes⟩ :=
    outputsFromHost_of_inPlace (β := β) (c.partition w) hroot c.devices_pos hbound (c.inPlace w)
      mem (runPull c.root (c.task w 0) vals host)
  refine ⟨mem', ?_, fun d hd j hj => ?_⟩
  · unfold fromHost
    rw [hcopy, Option.bind_eq_bind, Option.bind_some, hnccl]
  · funext k
    have hunit := (c.partition w).packed.unitLen_eq
    have hbyte := byte_lt hj k.isLt
    have hhas : Tiling.Range.Has ⟨c.offset, c.elements * c.tensor.unitLen⟩
        (c.offset + (j * getDataTypeLength c.tensor.dtype + k)) := by
      rw [hunit]
      exact ⟨Nat.le_add_right _ _, Nat.add_lt_add_left hbyte _⟩
    have hread := hbytes d hd _ hhas
    have hpulled : runPull c.root (c.task w 0) vals host 0 =
        memcpy (host 0) c.offset vals 0 (c.elements * c.tensor.unitLen) := by
      unfold runPull
      rw [c.cpubuff_root, Function.update_self, (c.partition w).offset 0, (c.partition w).len 0]
    rw [hpulled, memcpy_of_has hhas] at hread
    unfold devElems elems elem
    rw [Nat.add_assoc, hread, Nat.add_sub_cancel_left, ← Nat.add_assoc]

end Machine

/-! ### The server in between

The machines push what they have on the host, and the server sums it up; each device has copied
its part there.  The two sums, over the devices of a machine and over the machines, make one sum
over all devices.
-/

/-- A job in which the machines push what they have on the host, as `key` of the server. -/
structure Feeds [∀ dtype, AddCommMonoid (Element β dtype)] {cfg : Server.Config} (c : Cluster β)
    {codec : Server.Codec (Element β c.tensor.dtype) κ}
    (job : Server.Job (Element β c.tensor.dtype) κ cfg codec) (key : Server.Key) : Prop where
  mem : key ∈ job.keys
  uncompressed : job.compressed key = false
  len : job.len key = c.elements * getDataTypeLength c.tensor.dtype
  dtype : job.dtype key = c.tensor.dtype
  pushed : ∀ w < cfg.numWorkers, ∀ round, ∀ host ∈ c.toHost w round, ∀ j < c.elements,
    job.pushed w key round j = elems _ (pushVals c.root (c.task w 0) host) 0 j

variable [∀ dtype, AddCommMonoid (Element β dtype)] {cfg : Server.Config} {c : Cluster β}
variable {codec : Server.Codec (Element β c.tensor.dtype) κ}
variable {job : Server.Job (Element β c.tensor.dtype) κ cfg codec} {key : Server.Key}

/-- The sum of a round is the sum over all devices. -/
theorem Feeds.roundSum_eq (h : c.Feeds job key) (round : ℕ) {j : ℕ} (hj : j < c.elements) :
    job.roundSum key round j = ∑ w ∈ Finset.range cfg.numWorkers,
      ∑ d ∈ Finset.range c.devices, c.gradient w round d j := by
  refine Finset.sum_congr rfl fun w hw => ?_
  obtain ⟨host, hhost, hsum⟩ := c.toHost_eq w round
  rw [h.pushed w (Finset.mem_range.mp hw) round host hhost j hj, hsum j hj]

theorem Feeds.elements_eq (h : c.Feeds job key) : job.elements key = c.elements := by
  unfold Server.Job.elements
  rw [h.len, h.dtype, Nat.mul_div_cancel _ (getDataTypeLength_pos _)]

/-- One byte on each of two devices of a machine, which goes up by one from round to round. -/
def twoDevices : Cluster (Fin 256) where
  devices := 2
  roots := none
  tensor := byteTensor
  key := 0
  offset := 0
  elements := 1
  task _ _ := byteTask
  memory w round d _ _ := Fin.ofNat 256 (10 * w + round + d)
  host _ _ _ _ := 0
  order _ _ := [1, 0]
  devices_pos := by decide
  elements_pos := by decide
  roots_ne := by decide
  roots_lt := fun l hl => absurd hl (Option.not_mem_none l)
  partition _ := byteTask_partition
  inPlace _ := fun _ _ _ => rfl
  order_perm _ _ := by decide

/-- No key has a compressor. -/
def noCodec (α : Type) : Server.Codec α Unit where
  create _ _ _ _ := none
  compress c m len _ := (c, m, len)
  decompress c _ _ _ := c

/-- What two machines push. -/
def twoDevicesJob : Server.Job (Element (Fin 256) .uint8) Unit (Server.defaultConfig 2) (noCodec _) where
  keys := {0}
  len _ := 1
  dtype _ := .uint8
  compressed _ := false
  init _ _ _ := fun _ => 0
  content _ _ := fun _ => 0
  contentLen _ := 0
  pushed w _ round j := (twoDevices.toHost w round).elim (fun _ => 0) fun host =>
    elems _ (pushVals twoDevices.root byteTask host) 0 j
  pushedLen _ _ _ := 1
  keys_lt := Server.defaultConfig_zero 2
  pushedLen_pos _ _ _ := Nat.one_pos
  pushedLen_le _ _ _ := Nat.le_refl 1
  pushedLen_eq _ _ _ _ := rfl
  created _ h := by cases h

theorem twoDevices_feeds : twoDevices.Feeds twoDevicesJob 0 where
  mem := by decide
  uncompressed := rfl
  len := rfl
  dtype := rfl
  pushed w _ round host hhost j _ := by
    show (twoDevices.toHost w round).elim (fun _ => 0) _ = _
    rw [hhost]
    rfl

/-- Two rounds of the key 0, which both machines push and pull. -/
def twoRounds : List Server.Move :=
  [.request 0 0, .request 1 0, .request 0 0, .request 1 0, .pop 0, .execute 0, .pop 0, .execute 0,
    .pop 0, .execute 0, .request 0 0, .request 1 0, .deliver 0 0, .deliver 1 0, .request 1 0,
    .request 0 0, .pop 0, .execute 0, .pop 0, .execute 0, .pop 0, .execute 0, .request 0 0,
    .request 1 0, .deliver 1 0]

end Cluster

/-! ### The loops of all machines in any order

Here each machine is a run of its own, and the server another.  They are tied together by what
is pushed and what is delivered, round by round, and by nothing else.
-/

/--
A job whose machines have a partition of theirs as `key` of the server, and push the sums over
their devices.
-/
structure Exchanges [∀ dtype, AddCommMonoid (Element β dtype)] {cfg : Server.Config} {t : Tensor}
    {codec : Server.Codec (Element β t.dtype) κ} (machine : ℕ → Machine.Config)
    (e : ℕ → Exchange β) (offset E : ℕ)
    (job : Server.Job (Element β t.dtype) κ cfg codec) (key : Server.Key) : Prop where
  mem : key ∈ job.keys
  uncompressed : job.compressed key = false
  len : job.len key = E * getDataTypeLength t.dtype
  dtype : job.dtype key = t.dtype
  proper : ∀ w < cfg.numWorkers, (e w).Proper (machine w) t offset E
  pushed : ∀ w < cfg.numWorkers, ∀ round, ∀ j < E,
    job.pushed w key round j = (e w).total (machine w) t offset round j

section Exchanges

variable [∀ dtype, AddCommMonoid (Element β dtype)] {cfg : Server.Config} {t : Tensor}
variable {codec : Server.Codec (Element β t.dtype) κ} {machine : ℕ → Machine.Config}
variable {e : ℕ → Exchange β} {offset E : ℕ}
variable {job : Server.Job (Element β t.dtype) κ cfg codec} {key : Server.Key}

theorem Exchanges.elements_eq (h : Exchanges machine e offset E job key) : job.elements key = E := by
  unfold Server.Job.elements
  rw [h.len, h.dtype, Nat.mul_div_cancel _ (getDataTypeLength_pos _)]

/-- The machines of `Exchange.twoDevices`, two of them. -/
def exchangeJob :
    Server.Job (Element ℕ .uint8) Unit (Server.defaultConfig 2) (Cluster.noCodec _) where
  keys := {0}
  len _ := 1
  dtype _ := .uint8
  compressed _ := false
  init _ _ _ := fun _ => 0
  content _ _ := fun _ => 0
  contentLen _ := 0
  pushed w _ round j := (Exchange.twoDevices w).total Machine.twoDevices byteTensor 0 round j
  pushedLen _ _ _ := 1
  keys_lt := Server.defaultConfig_zero 2
  pushedLen_pos _ _ _ := Nat.one_pos
  pushedLen_le _ _ _ := Nat.le_refl 1
  pushedLen_eq _ _ _ _ := rfl
  created _ h := by cases h

theorem exchangeJob_exchanges : Exchanges (t := byteTensor) (fun _ => Machine.twoDevices)
    Exchange.twoDevices 0 1 exchangeJob 0 where
  mem := by decide
  uncompressed := rfl
  len := rfl
  dtype := rfl
  proper _ _ := Exchange.twoDevices_proper _
  pushed _ _ _ _ _ := rfl

end Exchanges

end DeepInc
