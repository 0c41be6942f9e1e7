/-
What the sum over the PCIe switches sums.

On a machine with more than one switch every switch has a buffer on the host, and its devices
copy their sums there.  Before the push the buffers have to be added up.  That is done by the
root of a column, over its own chunk: it adds the first switch's buffer to the last one's.

The chunks tile the partition, so every element of the last buffer gets the element of the
first, once.  The buffers in between are never read: with two switches this is the sum, and with
more it is not, since an element that only the second of three switches has is lost.  The
comment in the source says that two are assumed, but the number of switches is computed from the
environment and never compared with two.

The roots of the columns do their parts in any order, and no two of them write the same byte.
-/
import DeepInc.Proofs.Worker.Chunks
import Mathlib.Algebra.BigOperators.Intervals
import Mathlib.Algebra.Group.Fin.Basic
import Mathlib.Algebra.Group.Pi.Basic

namespace DeepInc.Worker

open ByteMemory Tiling

/-! ### The root of a column

Being the root is being the last of one's peers, and the peers are those with the same place on
every switch.
-/

variable {L S P : ℕ}

/-- The root of a column is on the last switch. -/
theorem isCpuReducerRoot_iff (hS : 0 < S) (hL : L = P * S) {r : ℕ} (hr : r < L) :
    (deviceOf L S none r).isCpuReducerRoot = true ↔ r / S + 1 = P := by
  have hdiv := Nat.div_add_mod' r S
  have hmod := Nat.mod_lt r hS
  have hlt : r / S < P := Nat.div_lt_of_lt_mul (by rw [Nat.mul_comm, ← hL]; exact hr)
  have hpairwise := Device.pairwise_reducerPeers (d := deviceOf L S none r) hS
  have hpeers : ∀ k, k ∈ (deviceOf L S none r).reducerPeers ↔ k < L ∧ k % S = r % S := fun k =>
    Device.mem_reducerPeers (d := deviceOf L S none r) hS
  unfold Device.isCpuReducerRoot
  rw [beq_iff_eq, getLast?_eq_some_iff_of_pairwise hpairwise]
  constructor
  · rintro ⟨-, hmax⟩
    by_contra hne
    -- the device with the same rank on the next switch is a later peer
    have hle : (r / S + 1 + 1) * S ≤ P * S := Nat.mul_le_mul_right S (by omega)
    rw [Nat.succ_mul, Nat.succ_mul] at hle
    have hnext : r + S ∈ (deviceOf L S none r).reducerPeers :=
      (hpeers _).mpr ⟨by omega, Nat.add_mod_right r S⟩
    have : r + S ≤ r := hmax _ hnext
    omega
  · intro hlast
    refine ⟨(hpeers r).mpr ⟨hr, rfl⟩, fun i hi => ?_⟩
    obtain ⟨hi, heq⟩ := (hpeers i).mp hi
    have hidiv := Nat.div_add_mod' i S
    have hlt' : i / S < P := Nat.div_lt_of_lt_mul (by rw [Nat.mul_comm, ← hL]; exact hi)
    have hle : i / S * S ≤ r / S * S := Nat.mul_le_mul_right S (by omega)
    show i ≤ r
    omega

/-! ### One device -/

variable {β : Type} [∀ dtype, AddCommMonoid (Element β dtype)]
variable {task : ℕ → DeviceTask} {t : Tensor} {key offset E : ℕ}

/-- A root adds the first buffer to the last over its chunk; no other device writes. -/
theorem runPcieReduce_eq (hpart : SamePartition task t key offset E) (hS : 0 < S)
    (hL : L = P * S) (hP : 2 ≤ P) {r : ℕ} (hr : r < L) (host : HostMemory β) :
    ∃ host', runPcieReduce (deviceOf L S none r) (task r) host = some host' ∧
      (∀ j, hostElems t offset host' (P - 1) j =
        if r / S + 1 = P ∧ (chunk S E (r % S)).Has j then
          hostElems t offset host (P - 1) j + hostElems t offset host 0 j
        else hostElems t offset host (P - 1) j) ∧
      ∀ i ≠ P - 1, host' i = host i := by
  have hw : 0 < getDataTypeLength t.dtype := getDataTypeLength_pos t.dtype
  have hcross : (deviceOf L S none r).isCpuReducerRoot = true ↔ r / S + 1 = P :=
    isCpuReducerRoot_iff hS hL hr
  have hlt : S < L := by
    have := Nat.mul_le_mul_right S hP
    omega
  have hbuff : cpubuff (deviceOf L S none r) = P - 1 := by
    unfold cpubuff Device.pcieSwitchNum deviceOf
    dsimp only
    rw [hL, Nat.mul_div_cancel _ hS]
  unfold runPcieReduce
  have hguard : (deviceOf L S none r).isCrossPcieSwitch = true := decide_eq_true hlt
  rw [hguard]
  by_cases hroot : r / S + 1 = P
  · rw [if_pos (hcross.mpr hroot), hpart.tensor r]
    refine ⟨_, rfl, fun j => ?_, fun i hi => Function.update_of_ne (hbuff ▸ hi) _ _⟩
    unfold hostElems
    rw [hpart.len r, hpart.offset r, hpart.packed.unitLen_eq, scatterRange_eq hw hS, hbuff]
    unfold bytesOf
    dsimp only
    rw [Function.update_self, Nat.mul_div_cancel _ hw, elems_fill]
    by_cases hhas : (chunk S E (r % S)).Has j
    · obtain ⟨i, rfl⟩ : ∃ i, j = (chunk S E (r % S)).start + i :=
        ⟨j - _, (Nat.add_sub_cancel' hhas.1).symm⟩
      have hi : i < (chunk S E (r % S)).len * getDataTypeLength t.dtype /
          getDataTypeLength t.dtype := by
        rw [Nat.mul_div_cancel _ hw]
        exact Nat.lt_of_add_lt_add_left hhas.2
      rw [if_pos hhas, if_pos ⟨hroot, hhas⟩, Nat.add_sub_cancel_left, CpuReducer.sum_lt hi,
        elems_add, elems_add]
    · rw [if_neg hhas, if_neg fun h => hhas h.2]
  · rw [if_neg fun h => hroot (hcross.mp h)]
    refine ⟨host, rfl, fun j => ?_, fun i _ => rfl⟩
    rw [if_neg fun h => hroot h.1]

/-! ### All devices

A fold over the devices in any order without repetition.  What it leaves of an element is
decided by the one root that owns it.
-/

/-- `PCIE_REDUCE` on the devices, in some order. -/
def runPcieReduces (L S : ℕ) (task : ℕ → DeviceTask) (order : List ℕ) (host : HostMemory β) :
    Option (HostMemory β) :=
  order.foldlM (fun host r => runPcieReduce (deviceOf L S none r) (task r) host) host

/-- The last buffer ends up with its own elements plus those of the first. -/
theorem runPcieReduces_eq (hpart : SamePartition task t key offset E) (hS : 0 < S)
    (hL : L = P * S) (hP : 2 ≤ P) {order : List ℕ} (horder : order.Perm (List.range L))
    (host : HostMemory β) :
    ∃ host', runPcieReduces L S task order host = some host' ∧
      ∀ j < E, hostElems t offset host' (P - 1) j =
        hostElems t offset host (P - 1) j + hostElems t offset host 0 j := by
  have hlt {r : ℕ} (hr : r ∈ order) : r < L := List.mem_range.mp (horder.mem_iff.mp hr)
  have hsome : (runPcieReduces L S task order host).isSome := by
    refine isSome_foldlM (fun r hr host => ?_) host
    obtain ⟨host', hrun, _⟩ := runPcieReduce_eq hpart hS hL hP (hlt hr) host
    rw [hrun]
    rfl
  obtain ⟨host', hhost'⟩ := Option.isSome_iff_exists.mp hsome
  refine ⟨host', hhost', fun j hj => ?_⟩
  -- the element's owner is on the last switch
  obtain ⟨c, ⟨hc, hhas⟩, hunique⟩ := existsUnique_chunk hS hj
  obtain ⟨Q, rfl⟩ : ∃ Q, P = Q + 1 := ⟨P - 1, by omega⟩
  have howner : Q * S + c < L := by
    rw [hL, Nat.succ_mul]
    omega
  have hmod : (Q * S + c) % S = c := Nat.mul_add_mod_of_lt hc
  have hdiv : (Q * S + c) / S = Q := by
    rw [Nat.mul_comm, Nat.mul_add_div hS, Nat.div_eq_of_lt hc, Nat.add_zero]
  let view (host : HostMemory β) := (hostElems t offset host Q j, hostElems t offset host 0 j)
  have hzero {r : ℕ} {host host' : HostMemory β} (hr : r ∈ order)
      (hstep : runPcieReduce (deviceOf L S none r) (task r) host = some host') :
      hostElems t offset host' 0 j = hostElems t offset host 0 j := by
    obtain ⟨host'', hrun, _, hother⟩ := runPcieReduce_eq hpart hS hL hP (hlt hr) host
    cases Option.some.inj (hrun.symm.trans hstep)
    unfold hostElems
    rw [hother 0 (by omega)]
  have hview : view host' = ((view host).1 + (view host).2, (view host).2) := by
    refine view_foldlM_of_owner view (fun v => (v.1 + v.2, v.2)) (horder.nodup_iff.mpr List.nodup_range)
      (horder.mem_iff.mpr (List.mem_range.mpr howner)) (fun r hr hne host host' hstep => ?_)
      (fun host host' hstep => ?_) hhost'
    · obtain ⟨host'', hrun, hlast, _⟩ := runPcieReduce_eq hpart hS hL hP (hlt hr) host
      refine Prod.ext ?_ (hzero hr hstep)
      cases Option.some.inj (hrun.symm.trans hstep)
      refine (hlast j).trans (if_neg ?_)
      rintro ⟨hroot, hhas'⟩
      have hr' := hunique (r % S) ⟨Nat.mod_lt r hS, hhas'⟩
      have hrdiv := Nat.div_add_mod' r S
      rw [hr', Nat.succ.inj hroot] at hrdiv
      exact hne hrdiv.symm
    · obtain ⟨host'', hrun, hlast, _⟩ := runPcieReduce_eq hpart hS hL hP howner host
      refine Prod.ext ?_ (hzero (horder.mem_iff.mpr (List.mem_range.mpr howner)) hstep)
      cases Option.some.inj (hrun.symm.trans hstep)
      refine (hlast j).trans (if_pos ⟨by rw [hdiv], ?_⟩)
      rw [hmod]
      exact hhas
  exact congrArg Prod.fst hview

/-- `PCIE_REDUCE` on all devices leaves the sum over all switches in the last buffer. -/
def SumsSwitches (β : Type) [∀ dtype, AddCommMonoid (Element β dtype)] (L S : ℕ)
    (task : ℕ → DeviceTask) (t : Tensor) (offset E : ℕ) : Prop :=
  ∀ (host : HostMemory β) (order : List ℕ), order.Perm (List.range L) →
    ∃ host', runPcieReduces L S task order host = some host' ∧
      ∀ j < E, hostElems t offset host' (L / S - 1) j =
        ∑ i ∈ Finset.range (L / S), hostElems t offset host i j

/-- With a switch in between, what it holds is lost. -/
theorem not_sumsSwitches (hpart : SamePartition task t key offset E) (hS : 0 < S)
    (hL : L = P * S) (hP : 3 ≤ P) (hE : 0 < E) [Nontrivial (Element β t.dtype)] :
    ¬SumsSwitches β L S task t offset E := by
  intro h
  obtain ⟨x, hx⟩ := exists_ne (0 : Element β t.dtype)
  -- only the second switch has anything but zeros
  let b : β := x ⟨0, getDataTypeLength_pos t.dtype⟩
  let content (i : ℕ) : Element β t.dtype := if i = 1 then x else 0
  let host : HostMemory β := fun i => fill (fun _ => b) offset E fun _ => content i
  have hcontent (i : ℕ) : hostElems t offset host i 0 = content i := by
    unfold hostElems elems
    exact elem_fill hE
  obtain ⟨host', hrun, hsum⟩ := h host (List.range L) (List.Perm.refl _)
  obtain ⟨host'', hrun', hlast⟩ := runPcieReduces_eq hpart hS hL (by omega) (.refl _) host
  cases Option.some.inj (hrun.symm.trans hrun')
  have hnum : L / S = P := by rw [hL, Nat.mul_div_cancel _ hS]
  have hsum := hsum 0 hE
  rw [hnum, hlast 0 hE, hcontent, hcontent] at hsum
  have htotal : ∑ i ∈ Finset.range P, hostElems t offset host i 0 = x := by
    rw [Finset.sum_eq_single_of_mem 1 (Finset.mem_range.mpr (by omega))]
    · exact (hcontent 1).trans (if_pos rfl)
    · intro i _ hi
      exact (hcontent i).trans (if_neg hi)
  have hends : content (P - 1) + content 0 = 0 := by
    have hlast : content (P - 1) = 0 := if_neg (by omega)
    have hfirst : content 0 = 0 := if_neg (by decide)
    rw [hlast, hfirst, add_zero]
  exact hx (htotal.symm.trans (hsum.symm.trans hends))

/--
**The reduce over the PCIe switches is the sum over all of them exactly with two switches**,
whatever the switch size the environment asks for and the order of the devices.
-/
theorem sumsSwitches_iff_two {env : Option ℤ} {m : NcclManager}
    (henv : NcclManager.initGlobalEnv env L = some m) (hnum : 2 ≤ L / m.ncclPcieSize)
    (hpart : SamePartition task t key offset E) (hE : 0 < E)
    [Nontrivial (Element β t.dtype)] :
    SumsSwitches β L m.ncclPcieSize task t offset E ↔ L / m.ncclPcieSize = 2 := by
  have hS : 0 < m.ncclPcieSize := by
    rcases Nat.eq_zero_or_pos m.ncclPcieSize with hzero | hpos
    · rw [hzero, Nat.div_zero] at hnum
      omega
    · exact hpos
  have hL : L = L / m.ncclPcieSize * m.ncclPcieSize :=
    (Nat.div_mul_cancel (NcclManager.initGlobalEnv_dvd henv)).symm
  constructor
  · intro h
    by_contra hne
    exact not_sumsSwitches hpart hS hL (by omega) hE h
  · intro htwo host order horder
    obtain ⟨host', hrun, hlast⟩ := runPcieReduces_eq hpart hS hL hnum horder host
    refine ⟨host', hrun, fun j hj => ?_⟩
    rw [hlast j hj, htwo, Finset.sum_range_succ, Finset.sum_range_one, add_comm]

theorem sumsSwitches_iff_two_four :
    SumsSwitches (Fin 256) 4 2 (fun _ => byteTask) byteTensor 0 1 ↔ 4 / 2 = 2 :=
  have henv : NcclManager.initGlobalEnv (some 2) 4 = some ⟨2, 2⟩ := by decide
  haveI : Nontrivial (Element (Fin 256) byteTensor.dtype) :=
    inferInstanceAs (Nontrivial (Fin 1 → Fin 256))
  sumsSwitches_iff_two henv (by decide) byteTask_partition Nat.one_pos

/-- Three switches of one device, with a one in every buffer: the sum comes out as two. -/
theorem middle_switch_lost : ¬∀ (env : Option ℤ) (L : ℕ) (m : NcclManager) (task : ℕ → DeviceTask)
    (t : Tensor) (key offset E : ℕ), NcclManager.initGlobalEnv env L = some m →
    2 ≤ L / m.ncclPcieSize → SamePartition task t key offset E → 0 < E →
    SumsSwitches (Fin 256) L m.ncclPcieSize task t offset E := by
  intro h
  obtain ⟨host', hrun, hsum⟩ := h (some 1) 3 ⟨1, 3⟩ (fun _ => byteTask) byteTensor 0 0 1 (by decide)
    (by decide) byteTask_partition Nat.one_pos (fun _ _ => 1) [0, 1, 2] (by decide)
  have hrun' : runPcieReduces 3 1 (fun _ => byteTask) [0, 1, 2] (fun _ _ => (1 : Fin 256)) =
      some host' := hrun
  have hlast : (host' 2 0 : Fin 256) = 2 := by
    have := congrArg (Option.map fun host => host 2 0) hrun'
    exact (Option.some.inj this).symm.trans (by decide +kernel)
  have hbyte := congrFun (hsum 0 Nat.one_pos) ⟨0, Nat.one_pos⟩
  have hthree : (2 : Fin 256) = 3 := hlast.symm.trans (hbyte.trans (by decide +kernel))
  exact absurd hthree (by decide)

end DeepInc.Worker
