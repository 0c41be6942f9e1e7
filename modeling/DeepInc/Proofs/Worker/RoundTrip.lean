/-
A partition to the host and back, on one switch.

Forth: REDUCE on all devices, and COPYD2H on each.  Back: COPYH2D on each, and BROADCAST on all.
What has to agree is who owns an element, and where it lies on the device.

Who owns it always agrees.  REDUCE and the copies compute the chunk of a device in different
places of the source and in different ways, but they come to the same range; so every byte of
the host buffer is written by one device, and it is the one that has the sum.

Where it lies does not agree for a task on the CPU whose output is not its input: the sum is
reduced to the output, and the copies go from and to the input.  The host then gets what the
devices had before, and the outputs are never written.  Empty roots are the other exception,
since the root of a key is found by a remainder of their number.

So the round trip works exactly for roots that are not empty, or not set, and for CPU tasks that
are in place.
-/
import DeepInc.Proofs.Worker.Nccl

namespace DeepInc.Worker

open ByteMemory Tiling

variable {β : Type}

/-! ### The copies of all devices -/

/-- COPYD2H on the devices, in some order; which device wrote which bytes is kept. -/
def runCopyDevice2Hosts (S : ℕ) (roots : Option (List ℤ)) (task : ℕ → DeviceTask)
    (mem : ℕ → DeviceMemory β) (order : List ℕ) (host : HostMemory β) :
    Option (List (ℕ × Range) × HostMemory β) :=
  order.foldlM (fun s r => (runCopyDevice2Host (deviceOf S S roots r) (task r) (mem r) s.2).map
    fun c => (s.1 ++ [(r, c.1)], c.2)) ([], host)

/-- COPYH2D on the devices. -/
def copyHost2Devices (S : ℕ) (roots : Option (List ℤ)) (task : ℕ → DeviceTask)
    (host : HostMemory β) (mem : ℕ → DeviceMemory β) : Option (ℕ → DeviceMemory β) := do
  guard (∀ r < S, (copyHost2Device (deviceOf S S roots r) (task r) host (mem r)).isSome)
  some fun r => (copyHost2Device (deviceOf S S roots r) (task r) host (mem r)).getD (mem r)

variable {S E offset key : ℕ} {t : Tensor} {task : ℕ → DeviceTask}
variable {roots : Option (List ℤ)} {root : Option ℤ}

/-- The bytes device `r` copies. -/
def copiedBytes (t : Tensor) (offset S E : ℕ) (root : Option ℤ) (r : ℕ) : Range :=
  { start := offset + (share S E root r).start * getDataTypeLength t.dtype
    len := (share S E root r).len * getDataTypeLength t.dtype }

/-- Where a device copies from. -/
def copiedFrom (S : ℕ) (task : DeviceTask) : Buffer := if 1 < S then gpuAddr task else .tensor

theorem runCopyDevice2Host_eq (hpart : SamePartition task t key offset E)
    (hroot : chosenRoot roots key = some root) {r : ℕ} (hr : r < S) (mem : DeviceMemory β)
    (host : HostMemory β) :
    runCopyDevice2Host (deviceOf S S roots r) (task r) mem host =
      some (copiedBytes t offset S E root r, Function.update host 0
        (memcpy (host 0) (copiedBytes t offset S E root r).start (mem (copiedFrom S (task r)))
          (copiedBytes t offset S E root r).start (copiedBytes t offset S E root r).len)) := by
  have hcopied : copiedTensor (deviceOf S S roots r) (task r) =
      (some t, if 1 < S then (task r).outputData else .tensor) := by
    unfold copiedTensor deviceOf
    dsimp only
    by_cases hS : 1 < S
    · rw [if_pos hS, if_pos hS, hpart.output r]
    · rw [if_neg hS, if_neg hS, hpart.tensor r]
  have hfrom : (if (task r).device = cpuDeviceId then Buffer.tensor
      else if 1 < S then (task r).outputData else .tensor) = copiedFrom S (task r) := by
    unfold copiedFrom gpuAddr
    by_cases hcpu : (task r).device = cpuDeviceId
    · rw [if_pos hcpu, if_pos hcpu, ite_self]
    · rw [if_neg hcpu, if_neg hcpu]
  have hhost : pcieCpubuff (deviceOf S S roots r) = 0 :=
    if_neg (by
      unfold Device.isCrossPcieSwitch deviceOf
      simp)
  unfold runCopyDevice2Host
  rw [hcopied, hhost, hpart.len r, hpart.key r, hpart.offset r]
  simp only [Option.bind_eq_bind, Option.bind_some]
  rw [hpart.packed.unitLen_eq, copyRange_eq (getDataTypeLength_pos t.dtype) hr hroot, hfrom]
  rfl

theorem copyHost2Device_eq (hpart : SamePartition task t key offset E)
    (hroot : chosenRoot roots key = some root) {r : ℕ} (hr : r < S) (host : HostMemory β)
    (mem : DeviceMemory β) :
    copyHost2Device (deviceOf S S roots r) (task r) host mem =
      some (Function.update mem (gpuAddr (task r))
        (memcpy (mem (gpuAddr (task r))) (copiedBytes t offset S E root r).start (host 0)
          (copiedBytes t offset S E root r).start (copiedBytes t offset S E root r).len)) := by
  have hhost : cpubuff (deviceOf S S roots r) = 0 := by
    unfold cpubuff Device.pcieSwitchNum deviceOf
    dsimp only
    rw [Nat.div_self (Nat.lt_of_le_of_lt (Nat.zero_le r) hr)]
  unfold copyHost2Device
  rw [hpart.output r, hhost, hpart.len r, hpart.key r, hpart.offset r]
  simp only [Option.bind_eq_bind, Option.bind_some]
  rw [hpart.packed.unitLen_eq, copyRange_eq (getDataTypeLength_pos t.dtype) hr hroot]
  rfl

/-! ### To the host -/

/-- What one device after the other leaves in the host memory. -/
def hostAfter (t : Tensor) (offset S E : ℕ) (root : Option ℤ) (task : ℕ → DeviceTask)
    (mem : ℕ → DeviceMemory β) (host : HostMemory β) (r : ℕ) : HostMemory β :=
  Function.update host 0 (memcpy (host 0) (copiedBytes t offset S E root r).start
    (mem r (copiedFrom S (task r))) (copiedBytes t offset S E root r).start
    (copiedBytes t offset S E root r).len)

theorem runCopyDevice2Hosts_eq (hpart : SamePartition task t key offset E)
    (hroot : chosenRoot roots key = some root) (mem : ℕ → DeviceMemory β) {order : List ℕ}
    (horder : ∀ r ∈ order, r < S) (host : HostMemory β) :
    runCopyDevice2Hosts S roots task mem order host =
      some (order.map fun r => (r, copiedBytes t offset S E root r),
        order.foldl (hostAfter t offset S E root task mem) host) := by
  have hlog (writes : List (ℕ × Range)) (host : HostMemory β) :
      order.foldlM (fun s r => (runCopyDevice2Host (deviceOf S S roots r) (task r) (mem r) s.2).map
        fun c => (s.1 ++ [(r, c.1)], c.2)) (writes, host) =
      some (writes ++ order.map (fun r => (r, copiedBytes t offset S E root r)),
        order.foldl (hostAfter t offset S E root task mem) host) := by
    induction order generalizing writes host with
    | nil => simp
    | cons r order ih =>
        rw [List.foldlM_cons, runCopyDevice2Host_eq hpart hroot (horder r List.mem_cons_self)]
        simp only [Option.map_some, Option.bind_eq_bind, Option.bind_some]
        rw [ih fun r hr => horder r (List.mem_cons_of_mem _ hr)]
        simp only [List.append_assoc, List.singleton_append, List.map_cons, List.foldl_cons]
        rfl
  exact hlog [] host

theorem hostElems_hostAfter (mem : ℕ → DeviceMemory β) (host : HostMemory β) (r j : ℕ) :
    hostElems t offset (hostAfter t offset S E root task mem host r) 0 j =
      if (share S E root r).Has j then devElems t offset (mem r) (copiedFrom S (task r)) j
      else hostElems t offset host 0 j := by
  unfold hostElems devElems hostAfter
  rw [Function.update_self]
  exact elems_memcpy _ _ _ _ _

/-- The host gets every element from its owner, and from no one else afterwards. -/
theorem hostElems_foldl {mem : ℕ → DeviceMemory β} {f : Element β t.dtype} {j o : ℕ}
    (h : ∀ r < S, (share S E root r).Has j →
      devElems t offset (mem r) (copiedFrom S (task r)) j = f)
    (ho : (share S E root o).Has j) {order : List ℕ} (horder : ∀ r ∈ order, r < S)
    {host : HostMemory β} (hcopied : hostElems t offset host 0 j = f ∨ o ∈ order) :
    hostElems t offset (order.foldl (hostAfter t offset S E root task mem) host) 0 j = f := by
  induction order generalizing host with
  | nil => exact hcopied.resolve_right List.not_mem_nil
  | cons r order ih =>
      refine ih (fun i hi => horder i (List.mem_cons_of_mem r hi)) ?_
      rw [hostElems_hostAfter]
      by_cases hr : (share S E root r).Has j
      · rw [if_pos hr]
        exact .inl (h r (horder r List.mem_cons_self) hr)
      · rw [if_neg hr]
        refine hcopied.imp_right fun hmem => ?_
        rcases List.mem_cons.mp hmem with rfl | hmem
        · exact absurd ho hr
        · exact hmem

/-- A byte of the partition is a byte of one of its elements. -/
theorem exists_element {w x : ℕ} (hx : Range.Has ⟨offset, E * w⟩ x) :
    ∃ j < E, ∃ k < w, x = offset + j * w + k := by
  have hstop : x < offset + E * w := hx.2
  have hstart : offset ≤ x := hx.1
  have hw : 0 < w := width_pos ⟨hstart, hstop⟩
  have hdiv := Nat.div_add_mod' (x - offset) w
  refine ⟨(x - offset) / w, Nat.div_lt_of_lt_mul ?_, (x - offset) % w, Nat.mod_lt _ hw, by omega⟩
  rw [Nat.mul_comm]
  omega

/-- Every byte of the partition is copied by one device. -/
theorem existsUnique_copied (hS : 0 < S) (hroot : ∀ r ∈ root, 0 ≤ r ∧ r < S) {order : List ℕ}
    (horder : order.Perm (List.range S)) {x : ℕ}
    (hx : Range.Has ⟨offset, E * getDataTypeLength t.dtype⟩ x) :
    ∃! r, ∃ range, (r, range) ∈ order.map (fun r => (r, copiedBytes t offset S E root r)) ∧
      range.Has x := by
  have hlt {r : ℕ} : r ∈ order ↔ r < S := horder.mem_iff.trans List.mem_range
  obtain ⟨j, hj, k, hk, rfl⟩ := exists_element hx
  obtain ⟨o, ⟨ho, hhas⟩, hunique⟩ := existsUnique_share hS hroot hj
  refine ⟨o, ⟨_, List.mem_map_of_mem (hlt.mpr ho), (bytes_has_iff hk offset).mpr hhas⟩, ?_⟩
  intro r hr
  obtain ⟨range, hmem, hrange⟩ := hr
  obtain ⟨r', hr', heq⟩ := List.mem_map.mp hmem
  obtain ⟨rfl, rfl⟩ := Prod.mk.inj heq
  exact hunique _ ⟨hlt.mp hr', (bytes_has_iff hk offset).mp hrange⟩

/-! ### The round trip

The two ways are two properties, and both hold under the condition.  Without it the way back is
refuted, by an output that keeps what it held.
-/

variable [∀ dtype, AddCommMonoid (Element β dtype)]

/-- Forth: the host holds the sums, and one device wrote every byte. -/
def SumsOnHost (β : Type) [∀ dtype, AddCommMonoid (Element β dtype)] (S : ℕ)
    (roots : Option (List ℤ)) (task : ℕ → DeviceTask) (t : Tensor) (offset E : ℕ) : Prop :=
  ∀ (mem : ℕ → DeviceMemory β) (host : HostMemory β) (order : List ℕ),
    order.Perm (List.range S) →
    ∃ mem' writes host', runNccl S (deviceOf S S roots) task .reduce mem = some mem' ∧
      runCopyDevice2Hosts S roots task mem' order host = some (writes, host') ∧
      (∀ j < E, hostElems t offset host' 0 j =
        ∑ r ∈ Finset.range S, devElems t offset (mem r) .tensor j) ∧
      ∀ x, Range.Has ⟨offset, E * t.unitLen⟩ x → ∃! r, ∃ range, (r, range) ∈ writes ∧ range.Has x

/-- Back: every device's output holds what the host holds. -/
def OutputsFromHost (β : Type) [∀ dtype, AddCommMonoid (Element β dtype)] (S : ℕ)
    (roots : Option (List ℤ)) (task : ℕ → DeviceTask) (t : Tensor) (offset E : ℕ) : Prop :=
  ∀ (mem : ℕ → DeviceMemory β) (host : HostMemory β),
    ∃ mem₁ mem', copyHost2Devices S roots task host mem = some mem₁ ∧
      runNccl S (deviceOf S S roots) task .broadcast mem₁ = some mem' ∧
      ∀ r < S, ∀ x, Range.Has ⟨offset, E * t.unitLen⟩ x →
        mem' r (task r).outputData x = host 0 x

/-- A task on the CPU is reduced in place. -/
def InPlaceOnCpu (S : ℕ) (task : ℕ → DeviceTask) : Prop :=
  ∀ r < S, (task r).device = cpuDeviceId → (task r).outputData = .tensor

theorem gpuAddr_of_inPlace (h : InPlaceOnCpu S task) {r : ℕ} (hr : r < S) :
    gpuAddr (task r) = (task r).outputData := by
  unfold gpuAddr
  by_cases hcpu : (task r).device = cpuDeviceId
  · rw [if_pos hcpu, h r hr hcpu]
  · rw [if_neg hcpu]

theorem sumsOnHost_of_inPlace (hpart : SamePartition task t key offset E)
    (hroot : chosenRoot roots key = some root) (hS : 0 < S) (hbound : ∀ r ∈ root, 0 ≤ r ∧ r < S)
    (h : InPlaceOnCpu S task) : SumsOnHost β S roots task t offset E := by
  intro mem host order horder
  have hlt : ∀ r ∈ order, r < S := fun r hr => List.mem_range.mp (horder.mem_iff.mp hr)
  -- the owner has the sum where it copies from
  have howned : ∃ mem', runNccl S (deviceOf S S roots) task .reduce mem = some mem' ∧
      ∀ r < S, ∀ j, (share S E root r).Has j →
        devElems t offset (mem' r) (copiedFrom S (task r)) j =
          ∑ s ∈ Finset.range S, devElems t offset (mem s) .tensor j := by
    unfold copiedFrom
    by_cases hone : 1 < S
    · refine ⟨_, (runNccl_eq hpart hroot hone mem).1, fun r hr j hj => ?_⟩
      rw [if_pos hone, gpuAddr_of_inPlace h hr]
      exact reduced_owned _ hr ((owns_iff_share hr).mpr hj)
    · have hone' : S = 1 := by omega
      refine ⟨mem, if_neg hone, fun r hr j _ => ?_⟩
      subst hone'
      rw [if_neg hone, Finset.sum_range_one, Nat.lt_one_iff.mp hr]
  obtain ⟨mem', hnccl, howned⟩ := howned
  refine ⟨mem', _, _, hnccl, runCopyDevice2Hosts_eq hpart hroot mem' hlt host, fun j hj => ?_, ?_⟩
  · obtain ⟨o, ⟨ho, hhas⟩, _⟩ := existsUnique_share hS hbound hj
    exact hostElems_foldl (fun r hr => howned r hr j) hhas hlt
      (.inr (horder.mem_iff.mpr (List.mem_range.mpr ho)))
  · intro x hx
    rw [hpart.packed.unitLen_eq] at hx
    exact existsUnique_copied hS hbound horder hx

omit [∀ dtype, AddCommMonoid (Element β dtype)] in
/-- The memory of the devices after COPYH2D. -/
theorem copyHost2Devices_eq (hpart : SamePartition task t key offset E)
    (hroot : chosenRoot roots key = some root) (mem : ℕ → DeviceMemory β) (host : HostMemory β) :
    ∃ mem₁, copyHost2Devices S roots task host mem = some mem₁ ∧
      (∀ r < S, ∀ b ≠ gpuAddr (task r), mem₁ r b = mem r b) ∧
      ∀ r < S, ∀ j, (share S E root r).Has j →
        devElems t offset (mem₁ r) (gpuAddr (task r)) j = hostElems t offset host 0 j := by
  have hcopy {r : ℕ} (hr : r < S) := copyHost2Device_eq hpart hroot hr host (mem r)
  have hguard : (guard (∀ r < S, (copyHost2Device (deviceOf S S roots r) (task r) host
      (mem r)).isSome) : Option Unit) = some () := if_pos fun r hr => by rw [hcopy hr]; rfl
  unfold copyHost2Devices
  rw [hguard]
  refine ⟨_, rfl, fun r hr b hb => ?_, fun r hr j hj => ?_⟩
  · rw [hcopy hr, Option.getD_some, Function.update_of_ne hb]
  · unfold devElems hostElems
    rw [hcopy hr, Option.getD_some, Function.update_self]
    exact (elems_memcpy _ _ _ _ _).trans (if_pos hj)

/-- What BROADCAST leaves where the tasks are copied to, and elsewhere. -/
theorem runNccl_broadcast (hpart : SamePartition task t key offset E)
    (hroot : chosenRoot roots key = some root) (hS : 0 < S) (hbound : ∀ r ∈ root, 0 ≤ r ∧ r < S)
    {mem : ℕ → DeviceMemory β} {f : ℕ → Element β t.dtype}
    (hmem : ∀ r < S, ∀ j, (share S E root r).Has j →
      devElems t offset (mem r) (gpuAddr (task r)) j = f j) :
    ∃ mem', runNccl S (deviceOf S S roots) task .broadcast mem = some mem' ∧
      (∀ r < S, ∀ b ≠ gpuAddr (task r), ∀ j,
        devElems t offset (mem' r) b j = devElems t offset (mem r) b j) ∧
      ∀ r < S, ∀ j < E, devElems t offset (mem' r) (gpuAddr (task r)) j = f j := by
  by_cases hone : 1 < S
  · refine ⟨_, (runNccl_eq hpart hroot hone mem).2, fun r _ b hb j => ?_, fun r _ j hj => ?_⟩
    · rw [devElems_broadcast, if_neg fun h => hb h.1, devElems_gather, if_neg fun h => hb h.1]
    · refine broadcast_owned _ ?_ (fun s hs j howns => hmem s hs j ((owns_iff_share hs).mp howns)) hj
      cases root with
      | none =>
          unfold splitOf
          dsimp only
          omega
      | some root => exact hbound root rfl
  · refine ⟨mem, if_neg hone, fun _ _ _ _ _ => rfl, fun r hr j hj => ?_⟩
    obtain ⟨o, ⟨ho, hhas⟩, _⟩ := existsUnique_share hS hbound hj
    have heq : o = r := by omega
    subst heq
    exact hmem o hr j hhas

theorem outputsFromHost_of_inPlace (hpart : SamePartition task t key offset E)
    (hroot : chosenRoot roots key = some root) (hS : 0 < S) (hbound : ∀ r ∈ root, 0 ≤ r ∧ r < S)
    (h : InPlaceOnCpu S task) : OutputsFromHost β S roots task t offset E := by
  intro mem host
  obtain ⟨mem₁, hcopy, _, howned⟩ := copyHost2Devices_eq hpart hroot mem host
  obtain ⟨mem', hnccl, _, hall⟩ := runNccl_broadcast hpart hroot hS hbound howned
  refine ⟨mem₁, mem', hcopy, hnccl, fun r hr x hx => ?_⟩
  rw [hpart.packed.unitLen_eq] at hx
  obtain ⟨j, hj, k, hk, rfl⟩ := exists_element hx
  have helem := hall r hr j hj
  rw [gpuAddr_of_inPlace h hr] at helem
  exact congrFun helem ⟨k, hk⟩

/-- A `BYTEPS_REDUCE_ROOTS` that names roots gives every key one of them. -/
theorem exists_chosenRoot (hempty : roots ≠ some [])
    (hroots : ∀ l ∈ roots, ∀ r ∈ l, 0 ≤ r ∧ r < (S : ℤ)) (key : ℕ) :
    ∃ root, chosenRoot roots key = some root ∧ ∀ r ∈ root, 0 ≤ r ∧ r < (S : ℤ) := by
  cases roots with
  | none => exact ⟨none, rfl, fun r hr => absurd hr (Option.not_mem_none r)⟩
  | some l =>
      have hlen : hashDJB2 (decimal key) % l.length < l.length :=
        Nat.mod_lt _ (List.length_pos_of_ne_nil fun h => hempty (congrArg some h))
      refine ⟨some l[hashDJB2 (decimal key) % l.length], ?_, fun r hr => ?_⟩
      · unfold chosenRoot getReduceRootByKey
        dsimp only
        rw [List.getElem?_eq_getElem hlen]
        rfl
      · rw [← Option.some.inj hr]
        exact hroots l rfl _ (List.getElem_mem hlen)

/-- One that names none ends the process. -/
theorem not_outputsFromHost_nil (hpart : SamePartition task t key offset E) (hS : 0 < S) [Nonempty β] :
    ¬OutputsFromHost β S (some []) task t offset E := by
  intro h
  obtain ⟨x⟩ := (inferInstance : Nonempty β)
  obtain ⟨mem₁, _, hcopy, _⟩ := h (fun _ _ _ => x) (fun _ _ => x)
  have hnone : copyHost2Device (deviceOf S S (some []) 0) (task 0) (fun _ _ => x) (fun _ _ => x) =
      none := by
    unfold copyHost2Device
    rw [hpart.output 0]
    rfl
  unfold copyHost2Devices at hcopy
  have hguard : (guard (∀ r < S, (copyHost2Device (deviceOf S S (some []) r) (task r)
      (fun _ _ => x) (fun _ _ => x)).isSome) : Option Unit) = none := by
    refine if_neg fun hall => ?_
    have := hall 0 hS
    rw [hnone] at this
    cases this
  rw [hguard] at hcopy
  cases hcopy

/-- Out of place on the CPU, the output of the device keeps what it held. -/
theorem not_outputsFromHost [Nontrivial β] (hpart : SamePartition task t key offset E)
    (hroot : chosenRoot roots key = some root) (hS : 0 < S) (hbound : ∀ r ∈ root, 0 ≤ r ∧ r < S)
    (hE : 0 < E) {r : ℕ} (hr : r < S) (hcpu : (task r).device = cpuDeviceId)
    (hout : (task r).outputData ≠ .tensor) : ¬OutputsFromHost β S roots task t offset E := by
  intro h
  obtain ⟨x, y, hxy⟩ := exists_pair_ne β
  have hne : (task r).outputData ≠ gpuAddr (task r) := by
    unfold gpuAddr
    rw [if_pos hcpu]
    exact hout
  have hw := getDataTypeLength_pos t.dtype
  obtain ⟨mem₁, mem', hcopy, hnccl, hbytes⟩ := h (fun _ _ _ => x) (fun _ _ => y)
  obtain ⟨mem₂, hcopy', hkeep, howned⟩ :=
    copyHost2Devices_eq hpart hroot (fun _ _ _ => x) fun _ _ => y
  cases Option.some.inj (hcopy.symm.trans hcopy')
  obtain ⟨mem₃, hnccl', hother, _⟩ := runNccl_broadcast hpart hroot hS hbound howned
  cases Option.some.inj (hnccl.symm.trans hnccl')
  -- the first byte of the partition
  have hhas : Range.Has ⟨offset, E * t.unitLen⟩ offset := by
    refine ⟨Nat.le_refl offset, Nat.lt_add_of_pos_right ?_⟩
    rw [hpart.packed.unitLen_eq]
    exact Nat.mul_pos hE hw
  have hkept : mem' r (task r).outputData offset = x := by
    have helem := congrFun (hother r hr _ hne 0) ⟨0, hw⟩
    unfold devElems elems elem at helem
    dsimp only at helem
    rw [Nat.zero_mul, Nat.add_zero, hkeep r hr _ hne] at helem
    exact helem
  exact hxy (hkept.symm.trans (hbytes r hr offset hhas))

/-- The task of a tensor on the CPU with an output of its own. -/
def cpuTask : DeviceTask :=
  { byteTask with device := cpuDeviceId, outputData := .output, sameTensor := false, same := nofun }

theorem cpuTask_partition : SamePartition (fun _ => cpuTask) byteTensor 0 0 1 where
  packed := byteTensor_packed
  tensor := fun _ => rfl
  output := fun _ => rfl
  key := fun _ => rfl
  offset := fun _ => rfl
  len := fun _ => rfl
  named := fun _ => by decide

end DeepInc.Worker
