/-
A machine pushes the sum and hands back the answer, whatever the order of its loops.

The loops of the devices take the tasks of a key through their stages, and the work on the
partition is done at some time after a task is taken and before it is handed back.  NCCL calls
are the work of all devices together; copies are the work of one.  Nothing else orders the work
of one device and another.

No device does the work of a stage before the stages it needs are over, and none is a round
ahead; so how often the stages are done says what there is in a memory.  On a device that is
first the gradient, then the sum in the elements it owns, then the answer in these, and at last
the answer in all; on the host it is the sum, and then the answer.

Two invariants carry this.  `Kept` ties the counts of the work to those of the loops, so that
the order of the stages, which `KeyRounds.lean` has for the loops, is there for the work.
`Holds` says what is in the memories by these counts, and each kind of work takes it one stage
further.

The partition may be anywhere, as long as it is one on every device: the elements are the same
number, and a task on the CPU is reduced in place, as in `RoundTrip.lean`.
-/
import DeepInc.Proofs.Worker.Machine
import DeepInc.Proofs.Worker.RoundTrip
import DeepInc.Worker.Exchange

namespace DeepInc.Worker

open ByteMemory Tiling Transition

/-! ### What comes before what

The counts of a key, on one device and between a device and the root.  They are consequences of
the invariant of `KeyRounds.lean`, in the form the work needs.
-/

/--
The work on a key, on one device and on the root: no stage is ahead of the one before it, and
the first is not ahead of the last by more than a round.
-/
structure InTurn (begun broadcast copyH2D pull push copyD2H reduce : ℕ) : Prop where
  broadcast_le : broadcast ≤ copyH2D
  copyH2D_le : copyH2D ≤ pull
  pull_le : pull ≤ push
  push_le : push ≤ copyD2H
  copyD2H_le : copyD2H ≤ reduce
  reduce_le : reduce ≤ begun
  begun_le : begun ≤ broadcast + 1

theorem broadcast_mem (n d : ℕ) : QueueType.broadcast ∈ stagesFor n d := by
  unfold stagesFor
  split <;> decide

namespace KeyState.Inv

variable {n k d : ℕ} {s : KeyState}

/-- A device, and the root: what is taken for has the stages before it finished. -/
theorem taken_after (h : s.Inv n k) (hd : d ≤ n) :
    gotCount s.log d .broadcast k ≤ finishedCount s.log d .copyH2D k ∧
      gotCount s.log d .copyH2D k ≤ finishedCount s.log n .pull k ∧
      gotCount s.log n .pull k ≤ finishedCount s.log n .push k ∧
      gotCount s.log n .push k ≤ finishedCount s.log d .copyD2H k ∧
      gotCount s.log d .copyD2H k ≤ finishedCount s.log d .reduce k := by
  have hpull := h.root_order (show [QueueType.push, .pull].Sublist rootStages by decide)
  have hback := h.root_order (show [QueueType.pull, .copyH2D].Sublist rootStages by decide)
  rcases Nat.lt_or_eq_of_le hd with hlt | rfl
  · have hcopy := h.copy d hlt
    have hcopied := h.copied d hlt
    have hpushes : gotCount s.log n .push k + s.compressing ≤ heardCount s.log d .pushReady k :=
      h.push.le d hlt
    have hheard : heardCount s.log d .pushReady k ≤ finishedCount s.log d .coordinatePush k :=
      h.heard_le hlt rfl
    have hpush := h.peer_bounds hlt (show QueueType.coordinatePush ∈ peerStages by decide)
    have hready :=
      h.peer_order hlt (show [QueueType.copyD2H, .coordinatePush].Sublist peerStages by decide)
    refine ⟨h.peer_order hlt (by decide), by omega, hpull, by omega, h.peer_order hlt (by decide)⟩
  · exact ⟨h.root_order (by decide), hback, hpull, h.root_order (by decide),
      h.root_order (by decide)⟩

end KeyState.Inv

/-- A step of a key begins a round of an idle device or none, and forgets nothing. -/
theorem KeyState.Step.counts {n k : ℕ} {s s' : KeyState} (h : KeyState.Step n k s s') (d : ℕ) :
    (∀ op, gotCount s.log d op k ≤ gotCount s'.log d op k) ∧
      (begunCount s'.log d k = begunCount s.log d k ∨
        begunCount s'.log d k = begunCount s.log d k + 1 ∧ s.left d = []) := by
  cases h with
  | begin d' stages hd hstages hidle =>
      by_cases hdd : d' = d
      · subst hdd
        exact ⟨fun op => by simp, .inr ⟨by simp, hidle⟩⟩
      · exact ⟨fun op => by simp, .inl (by simp [hdd])⟩
  | take | call | finish | restore | hear | copy => exact ⟨fun op => by simp, .inl (by simp)⟩

namespace Machine

variable (cfg : Config) (m : Machine) (d k : ℕ) (op : QueueType)

theorem begunCount_view : begunCount (m.view cfg k).log d k = begunCount m.log d k :=
  List.count_filter (decide_eq_true rfl)

theorem gotCount_view : gotCount (m.view cfg k).log d op k = gotCount m.log d op k :=
  List.count_filter (decide_eq_true rfl)

theorem finishedCount_view : finishedCount (m.view cfg k).log d op k = finishedCount m.log d op k :=
  List.count_filter (decide_eq_true rfl)

end Machine

/-! ### What the work does to the elements

Each kind of work is described by the elements it changes: which device owns them, and what is
in them afterwards.  That nothing else changes is as much needed, because other devices may be
at their work on the same host buffer.
-/

namespace Exchange

variable {β : Type} {cfg : Machine.Config} {e : Exchange β} {t : Tensor} {offset E : ℕ}
variable {root : Option ℤ} {x x' : State β}

/-- A partition the devices of a machine have in common. -/
structure Proper (cfg : Machine.Config) (e : Exchange β) (t : Tensor) (offset E : ℕ) : Prop where
  two : 2 ≤ cfg.localSize
  partition : SamePartition e.task t e.key offset E
  inPlace : InPlaceOnCpu cfg.localSize e.task
  roots_ne : e.roots ≠ some []
  roots_lt : ∀ l ∈ e.roots, ∀ r ∈ l, 0 ≤ r ∧ r < (cfg.localSize : ℤ)

/-- The root of a key, where `BYTEPS_REDUCE_ROOTS` names one. -/
structure Rooted (cfg : Machine.Config) (e : Exchange β) (root : Option ℤ) : Prop where
  chosen : chosenRoot e.roots e.key = some root
  bound : ∀ r ∈ root, 0 ≤ r ∧ r < (cfg.localSize : ℤ)

namespace Proper

theorem exists_root (h : e.Proper cfg t offset E) : ∃ root, e.Rooted cfg root := by
  obtain ⟨root, hroot, hbound⟩ := exists_chosenRoot h.roots_ne h.roots_lt e.key
  exact ⟨root, hroot, hbound⟩

theorem le_root (h : e.Proper cfg t offset E) {d : ℕ} : d ≤ cfg.root ↔ d < cfg.localSize := by
  have htwo := h.two
  unfold Machine.Config.root
  omega

theorem gpuAddr_eq (h : e.Proper cfg t offset E) {d : ℕ} (hd : d < cfg.localSize) :
    gpuAddr (e.task d) = (e.task d).outputData := gpuAddr_of_inPlace h.inPlace hd

/-- The elements of the partition, after it is written. -/
theorem elems_within (h : e.Proper cfg t offset E) (d : ℕ) (inside outside : Memory β) {j : ℕ}
    (hj : j < E) : elems (getDataTypeLength t.dtype) (e.within d inside outside) offset j =
      elems (getDataTypeLength t.dtype) inside offset j := by
  have hmem := elems_memcpy (w := getDataTypeLength t.dtype) outside inside offset ⟨0, E⟩ j
  dsimp only at hmem
  rw [Nat.zero_mul, Nat.add_zero] at hmem
  unfold within
  rw [h.partition.offset, h.partition.len, h.partition.packed.unitLen_eq, hmem]
  exact if_pos ⟨Nat.zero_le j, show j < 0 + E by omega⟩

end Proper

/-- What a device owns is in the partition. -/
theorem lt_of_share {S d j : ℕ} (hd : d < S) (hj : (share S E root d).Has j) : j < E := by
  have htotal := (splitOf S E root).total
  rcases (owns_iff_share hd).mpr hj with hchunk | ⟨_, hrest⟩
  · have := Nat.lt_of_lt_of_le hchunk.2 ((splitOf S E root).chunk_stop_le hd)
    omega
  · have hstop : j < S * (splitOf S E root).num + (splitOf S E root).left := hrest.2
    omega

/-- An element has one owner. -/
theorem owner_unique (hroot : e.Rooted cfg root) {d d' j : ℕ} (hd : d < cfg.localSize)
    (hd' : d' < cfg.localSize) (hj : (share cfg.localSize E root d).Has j)
    (hj' : (share cfg.localSize E root d').Has j) : d = d' := by
  have hpos : 0 < cfg.localSize := Nat.lt_of_le_of_lt (Nat.zero_le d) hd
  obtain ⟨o, _, hunique⟩ := existsUnique_share hpos hroot.bound (lt_of_share hd hj)
  exact (hunique d ⟨hd, hj⟩).trans (hunique d' ⟨hd', hj'⟩).symm

theorem exists_owner (h : e.Proper cfg t offset E) (hroot : e.Rooted cfg root) {j : ℕ} (hj : j < E) :
    ∃ d < cfg.localSize, (share cfg.localSize E root d).Has j := by
  have hpos : 0 < cfg.localSize := Nat.lt_of_lt_of_le Nat.zero_lt_two h.two
  obtain ⟨o, ⟨ho, hhas⟩, _⟩ := existsUnique_share hpos hroot.bound hj
  exact ⟨o, ho, hhas⟩

section Effects

variable [∀ dtype, AddCommMonoid (Element β dtype)]

/-- The element of a memory, in the output of a device. -/
def outElem (e : Exchange β) (t : Tensor) (offset : ℕ) (mem : ℕ → DeviceMemory β) (d j : ℕ) :
    Element β t.dtype := devElems t offset (mem d) (e.task d).outputData j

/-- A stage of NCCL, and what it leaves with the devices. -/
theorem runCollective_cases {stage : NcclStage} (hs : runCollective cfg e x stage = .ok x') :
    (∀ d < cfg.localSize, working e x d (stageOf stage)) ∧
      ∃ mem, runNccl cfg.localSize (e.device cfg) e.task stage x.device = some mem ∧
        x' = { x with device := mem }.workAll (stageOf stage) := by
  unfold runCollective at hs
  split at hs
  · rename_i hworking
    cases hrun : runNccl cfg.localSize (e.device cfg) e.task stage x.device with
    | none =>
        rw [hrun] at hs
        cases hs
    | some mem =>
        rw [hrun] at hs
        cases hs
        exact ⟨hworking, mem, rfl, rfl⟩
  · cases hs

/-- After REDUCE the owner of an element has its sum. -/
theorem reduce_owned (h : e.Proper cfg t offset E) (hroot : e.Rooted cfg root)
    {mem mem' : ℕ → DeviceMemory β}
    (hrun : runNccl cfg.localSize (e.device cfg) e.task .reduce mem = some mem') {d : ℕ}
    (hd : d < cfg.localSize) {j : ℕ} (hj : (share cfg.localSize E root d).Has j) :
    e.outElem t offset mem' d j =
      ∑ s ∈ Finset.range cfg.localSize, devElems t offset (mem s) .tensor j := by
  have hdevice : e.device cfg = deviceOf cfg.localSize cfg.localSize e.roots := rfl
  rw [hdevice, (runNccl_eq h.partition hroot.chosen h.two mem).1] at hrun
  obtain rfl := Option.some.inj hrun
  exact reduced_owned _ hd ((owns_iff_share hd).mpr hj)

/-- After BROADCAST every device has what the owners had. -/
theorem broadcast_all (h : e.Proper cfg t offset E) (hroot : e.Rooted cfg root)
    {mem mem' : ℕ → DeviceMemory β}
    (hrun : runNccl cfg.localSize (e.device cfg) e.task .broadcast mem = some mem')
    {f : ℕ → Element β t.dtype}
    (hmem : ∀ d < cfg.localSize, ∀ j, (share cfg.localSize E root d).Has j →
      e.outElem t offset mem d j = f j) {d : ℕ} (hd : d < cfg.localSize) {j : ℕ} (hj : j < E) :
    e.outElem t offset mem' d j = f j := by
  have hpos : 0 < cfg.localSize := Nat.lt_of_le_of_lt (Nat.zero_le d) hd
  obtain ⟨after, hafter, _, hall⟩ := runNccl_broadcast (f := f) h.partition hroot.chosen hpos
    hroot.bound fun r hr j hj => by
      rw [h.gpuAddr_eq hr]
      exact hmem r hr j hj
  obtain rfl : mem' = after := Option.some.inj (hrun.symm.trans hafter)
  have helem := hall d hd j hj
  rwa [h.gpuAddr_eq hd] at helem

end Effects

/-- A copy to the host, and what is there afterwards. -/
theorem runCopyToHost_cases (h : e.Proper cfg t offset E) (hroot : e.Rooted cfg root) {d : ℕ}
    (hs : runCopyToHost cfg e x d = .ok x') :
    d < cfg.localSize ∧ working e x d .copyD2H ∧ ∃ host,
      x' = { x with host := host }.work d .copyD2H ∧
      ∀ j, hostElems t offset host 0 j =
        if (share cfg.localSize E root d).Has j then e.outElem t offset x.device d j
        else hostElems t offset x.host 0 j := by
  unfold runCopyToHost at hs
  split at hs
  · rename_i hcond
    obtain ⟨hd, hworking⟩ := hcond
    have hdevice : e.device cfg d = deviceOf cfg.localSize cfg.localSize e.roots d := rfl
    have hfrom : copiedFrom cfg.localSize (e.task d) = (e.task d).outputData :=
      (if_pos h.two).trans (h.gpuAddr_eq hd)
    rw [hdevice, runCopyDevice2Host_eq h.partition hroot.chosen hd] at hs
    cases hs
    refine ⟨hd, hworking, _, rfl, fun j => ?_⟩
    have hcopied : hostElems t offset
        (hostAfter t offset cfg.localSize E root e.task x.device x.host d) 0 j = _ :=
      hostElems_hostAfter x.device x.host d j
    rw [hfrom] at hcopied
    unfold hostAfter at hcopied
    rw [hfrom] at hcopied ⊢
    exact hcopied
  · cases hs

/-- A copy from the host, and what is on the device afterwards. -/
theorem runCopyToDevice_cases (h : e.Proper cfg t offset E) (hroot : e.Rooted cfg root) {d : ℕ}
    (hs : runCopyToDevice cfg e x d = .ok x') :
    d < cfg.localSize ∧ working e x d .copyH2D ∧ ∃ mem,
      x' = { x with device := Function.update x.device d mem }.work d .copyH2D ∧
      ∀ j, (share cfg.localSize E root d).Has j →
        devElems t offset mem (e.task d).outputData j = hostElems t offset x.host 0 j := by
  unfold runCopyToDevice at hs
  split at hs
  · rename_i hcond
    obtain ⟨hd, hworking⟩ := hcond
    have hdevice : e.device cfg d = deviceOf cfg.localSize cfg.localSize e.roots d := rfl
    rw [hdevice, copyHost2Device_eq h.partition hroot.chosen hd] at hs
    cases hs
    refine ⟨hd, hworking, _, rfl, fun j hj => ?_⟩
    unfold devElems hostElems
    rw [h.gpuAddr_eq hd, Function.update_self]
    exact (elems_memcpy _ _ _ _ _).trans (if_pos hj)
  · cases hs

/-- The buffer of the one switch. -/
theorem cpubuff_device (h : e.Proper cfg t offset E) (d : ℕ) : cpubuff (e.device cfg d) = 0 := by
  have hpos : 0 < cfg.localSize := Nat.lt_of_lt_of_le Nat.zero_lt_two h.two
  show cfg.localSize / cfg.localSize - 1 = 0
  rw [Nat.div_self hpos]

/-- What is pushed is what the host holds. -/
theorem runPushOnce_cases (h : e.Proper cfg t offset E) (hs : runPushOnce cfg e x = .ok x') :
    working e x cfg.root .push ∧ ∃ vals,
      x' = { x with pushed := x.pushed ++ [vals] }.work cfg.root .push ∧
      ∀ j, elems (getDataTypeLength t.dtype) vals 0 j = hostElems t offset x.host 0 j := by
  unfold runPushOnce at hs
  split at hs
  · rename_i hworking
    cases hs
    refine ⟨hworking, _, rfl, fun j => ?_⟩
    funext k
    unfold hostElems elems elem pushVals
    rw [cpubuff_device h, h.partition.offset, Nat.zero_add, Nat.add_assoc]
  · cases hs

/-- What is pulled is what the host holds afterwards. -/
theorem runPullOnce_cases (h : e.Proper cfg t offset E) (hs : runPullOnce cfg e x = .ok x') :
    working e x cfg.root .pull ∧ ∃ host,
      x' = { x with host := host }.work cfg.root .pull ∧
      ∀ j < E, hostElems t offset host 0 j =
        elems (getDataTypeLength t.dtype) (e.answer (x.done cfg.root .pull)) 0 j := by
  unfold runPullOnce at hs
  split at hs
  · rename_i hworking
    cases hs
    refine ⟨hworking, _, rfl, fun j hj => ?_⟩
    funext k
    have hbyte := byte_lt hj k.isLt
    have hhas : Range.Has ⟨offset, E * t.unitLen⟩ (offset + (j * getDataTypeLength t.dtype + k)) := by
      rw [h.partition.packed.unitLen_eq]
      exact ⟨Nat.le_add_right _ _, Nat.add_lt_add_left hbyte _⟩
    unfold hostElems elems elem runPull
    rw [cpubuff_device h, h.partition.offset, h.partition.len, Function.update_self, Nat.add_assoc,
      memcpy_of_has hhas, Nat.add_sub_cancel_left, Nat.zero_add, Nat.zero_add]
  · cases hs

/-! ### How far the work is

The work of a stage is done at most once for each time the stage is taken for, and before it is
handed back.
-/

/-- The work keeps up with the loops. -/
structure Kept (cfg : Machine.Config) (e : Exchange β) (x : State β) : Prop where
  sound : x.machine.Sound cfg
  key : (x.machine.view cfg e.key).Inv cfg.root e.key
  finished_le : ∀ d < cfg.localSize, ∀ op ∈ dataStages,
    finishedCount x.machine.log d op e.key ≤ x.done d op
  le_got : ∀ d < cfg.localSize, ∀ op ∈ dataStages,
    x.done d op ≤ gotCount x.machine.log d op e.key

namespace Kept

variable {d : ℕ}

/-- A stage is taken for after the work of the one before it. -/
theorem taken_after (hx : e.Kept cfg x) (h : e.Proper cfg t offset E) (hd : d < cfg.localSize) :
    gotCount x.machine.log d .broadcast e.key ≤ x.done d .copyH2D ∧
      gotCount x.machine.log d .copyH2D e.key ≤ x.done cfg.root .pull ∧
      gotCount x.machine.log cfg.root .pull e.key ≤ x.done cfg.root .push ∧
      gotCount x.machine.log cfg.root .push e.key ≤ x.done d .copyD2H ∧
      gotCount x.machine.log d .copyD2H e.key ≤ x.done d .reduce ∧
      gotCount x.machine.log d .reduce e.key ≤ begunCount x.machine.log d e.key := by
  have hlast : cfg.root < cfg.localSize := h.le_root.mp (Nat.le_refl _)
  have hturn := hx.key.taken_after (h.le_root.mpr hd)
  have hmem : QueueType.reduce ∈ stagesFor cfg.root d := by
    unfold stagesFor
    split <;> decide
  have hbegun := hx.key.bounds (h.le_root.mpr hd) hmem
  simp only [Machine.gotCount_view, Machine.finishedCount_view, Machine.begunCount_view] at hturn hbegun
  have hreduce := hx.finished_le d hd .reduce (by decide)
  have hcopied := hx.finished_le d hd .copyD2H (by decide)
  have hback := hx.finished_le d hd .copyH2D (by decide)
  have hpush := hx.finished_le cfg.root hlast .push (by decide)
  have hpull := hx.finished_le cfg.root hlast .pull (by decide)
  omega

theorem inTurn (hx : e.Kept cfg x) (h : e.Proper cfg t offset E) (hd : d < cfg.localSize) :
    InTurn (begunCount x.machine.log d e.key) (x.done d .broadcast) (x.done d .copyH2D)
      (x.done cfg.root .pull) (x.done cfg.root .push) (x.done d .copyD2H) (x.done d .reduce) := by
  have hlast : cfg.root < cfg.localSize := h.le_root.mp (Nat.le_refl _)
  have hafter := hx.taken_after h hd
  have hbegun := hx.key.bounds (h.le_root.mpr hd) (broadcast_mem cfg.root d)
  simp only [Machine.gotCount_view, Machine.finishedCount_view, Machine.begunCount_view] at hbegun
  have hfinished := hx.finished_le d hd .broadcast (by decide)
  have hbroadcast := hx.le_got d hd .broadcast (by decide)
  have hback := hx.le_got d hd .copyH2D (by decide)
  have hcopied := hx.le_got d hd .copyD2H (by decide)
  have hreduce := hx.le_got d hd .reduce (by decide)
  have hpush := hx.le_got cfg.root hlast .push (by decide)
  have hpull := hx.le_got cfg.root hlast .pull (by decide)
  constructor <;> omega

/-- The work of a stage that is taken for. -/
theorem work (hx : e.Kept cfg x) {op : QueueType} (hworking : working e x d op) (x' : State β)
    (hmachine : x'.machine = x.machine)
    (hdone : ∀ d' op', x'.done d' op' = x.done d' op' + if op' = op ∧ d' = d then 1 else 0) :
    e.Kept cfg x' where
  sound := hmachine ▸ hx.sound
  key := hmachine ▸ hx.key
  finished_le d' hd' op' hop' := by
    have := hx.finished_le d' hd' op' hop'
    rw [hmachine, hdone]
    omega
  le_got d' hd' op' hop' := by
    have hgot := hx.le_got d' hd' op' hop'
    rw [hmachine, hdone]
    by_cases h : op' = op ∧ d' = d
    · obtain ⟨rfl, rfl⟩ := h
      rw [if_pos ⟨rfl, rfl⟩]
      exact hworking
    · rw [if_neg h]
      exact hgot

/-- The work of a stage that all devices have taken for. -/
theorem workAll (hx : e.Kept cfg x) {op : QueueType}
    (hworking : ∀ d < cfg.localSize, working e x d op) (x' : State β)
    (hmachine : x'.machine = x.machine)
    (hdone : ∀ d' op', x'.done d' op' = x.done d' op' + if op' = op then 1 else 0) :
    e.Kept cfg x' where
  sound := hmachine ▸ hx.sound
  key := hmachine ▸ hx.key
  finished_le d' hd' op' hop' := by
    have := hx.finished_le d' hd' op' hop'
    rw [hmachine, hdone]
    omega
  le_got d' hd' op' hop' := by
    have hgot := hx.le_got d' hd' op' hop'
    rw [hmachine, hdone]
    by_cases h : op' = op
    · subst h
      rw [if_pos rfl]
      exact hworking d' hd'
    · rw [if_neg h]
      exact hgot

/-- The loops go on, and hand back what is done. -/
theorem machine (hx : e.Kept cfg x) (h : e.Proper cfg t offset E) {a : Machine.Act}
    (honce : x.machine.OncePerKey a) {m : Machine} (hs : Machine.step cfg x.machine a = .ok m)
    (hfinished : ∀ d < cfg.localSize, ∀ op ∈ dataStages,
      m.log.count (.finished d op e.key) ≤ x.done d op) (x' : State β) (hmachine : x'.machine = m)
    (hdone : x'.done = x.done) :
    e.Kept cfg x' ∧ ∀ d, begunCount m.log d e.key = begunCount x.machine.log d e.key ∨
      begunCount m.log d e.key = begunCount x.machine.log d e.key + 1 ∧
        (x.machine.view cfg e.key).left d = [] := by
  have hfollows := Machine.step_follows h.two hx.sound honce hs
  have hview : (m.view cfg e.key).Inv cfg.root e.key ∧ ∀ d,
      (∀ op, gotCount x.machine.log d op e.key ≤ gotCount m.log d op e.key) ∧
        (begunCount m.log d e.key = begunCount x.machine.log d e.key ∨
          begunCount m.log d e.key = begunCount x.machine.log d e.key + 1 ∧
            (x.machine.view cfg e.key).left d = []) := by
    rcases hfollows.view e.key with hsame | hstep
    · have hlog := congrArg KeyState.log hsame
      refine ⟨hsame ▸ hx.key, fun d => ⟨fun op => ?_, .inl ?_⟩⟩
      · rw [← Machine.gotCount_view cfg m, hlog, Machine.gotCount_view]
      · rw [← Machine.begunCount_view cfg m, hlog, Machine.begunCount_view]
    · refine ⟨hx.key.step hstep, fun d => ?_⟩
      have hcounts := hstep.counts d
      simp only [Machine.gotCount_view, Machine.begunCount_view] at hcounts
      exact hcounts
  obtain ⟨hkey, hcounts⟩ := hview
  subst hmachine
  refine ⟨⟨hfollows.sound, hkey, fun d hd op hop => ?_, fun d hd op hop => ?_⟩,
    fun d => (hcounts d).2⟩
  · rw [hdone]
    exact hfinished d hd op hop
  · rw [hdone]
    exact (hx.le_got d hd op hop).trans ((hcounts d).1 op)

end Kept

/-! ### What the memories hold

The cases of `Holds` are told apart by counts: a device has the gradient of a round if it has
begun the round and not reduced it, and so on.  A piece of work raises one count, and has to
find the memories as the stage before has left them.
-/

/-- What a device brings into a round. -/
def gradient (e : Exchange β) (t : Tensor) (offset round d j : ℕ) : Element β t.dtype :=
  devElems t offset (e.written round d) .tensor j

/-- What the server gives back in a round. -/
def answered (e : Exchange β) (t : Tensor) (round j : ℕ) : Element β t.dtype :=
  elems _ (e.answer round) 0 j

variable [∀ dtype, AddCommMonoid (Element β dtype)]

/-- The sum of a round over the devices. -/
def total (cfg : Machine.Config) (e : Exchange β) (t : Tensor) (offset round j : ℕ) :
    Element β t.dtype := ∑ d ∈ Finset.range cfg.localSize, e.gradient t offset round d j

/-- What the memories hold by how often the stages are done, on a device and on the host. -/
structure Holds (cfg : Machine.Config) (e : Exchange β) (t : Tensor) (offset E : ℕ)
    (root : Option ℤ) (x : State β) : Prop where
  together : ∀ d < cfg.localSize, x.done d .reduce = x.done cfg.root .reduce ∧
    x.done d .broadcast = x.done cfg.root .broadcast
  loaded : ∀ d < cfg.localSize, x.done d .reduce < begunCount x.machine.log d e.key → ∀ j < E,
    devElems t offset (x.device d) .tensor j = e.gradient t offset (x.done d .reduce) d j
  summed : ∀ d < cfg.localSize, x.done d .copyH2D < x.done d .reduce →
    ∀ j, (share cfg.localSize E root d).Has j →
      e.outElem t offset x.device d j = e.total cfg t offset (x.done d .copyH2D) j
  onHost : ∀ d < cfg.localSize, x.done cfg.root .pull < x.done d .copyD2H →
    ∀ j, (share cfg.localSize E root d).Has j →
      hostElems t offset x.host 0 j = e.total cfg t offset (x.done cfg.root .pull) j
  pulled : ∀ d < cfg.localSize, x.done d .copyH2D < x.done cfg.root .pull →
    ∀ j, (share cfg.localSize E root d).Has j →
      hostElems t offset x.host 0 j = e.answered t (x.done d .copyH2D) j
  returned : ∀ d < cfg.localSize, x.done d .broadcast < x.done d .copyH2D →
    ∀ j, (share cfg.localSize E root d).Has j →
      e.outElem t offset x.device d j = e.answered t (x.done d .broadcast) j
  output : ∀ d < cfg.localSize, ∀ round, x.done d .broadcast = round + 1 →
    begunCount x.machine.log d e.key = round + 1 → ∀ j < E,
      e.outElem t offset x.device d j = e.answered t round j
  pushes : x.pushed.length = x.done cfg.root .push
  sums : ∀ round vals, x.pushed[round]? = some vals → ∀ j < E,
    elems (getDataTypeLength t.dtype) vals 0 j = e.total cfg t offset round j

namespace Holds

variable (h : e.Proper cfg t offset E) (hroot : e.Rooted cfg root)
variable (hkept : e.Kept cfg x) (hx : e.Holds cfg t offset E root x)

include h hroot hkept hx

/-- REDUCE finds the gradients of one round, and leaves their sum. -/
theorem reduce (hs : runCollective cfg e x .reduce = .ok x') :
    e.Kept cfg x' ∧ e.Holds cfg t offset E root x' := by
  obtain ⟨hworking, mem, hrun, rfl⟩ := runCollective_cases hs
  have hkept' := hkept.workAll hworking ({ x with device := mem }.workAll .reduce) rfl
    fun _ _ => rfl
  -- every device is at the beginning of the same round
  have hlt (d : ℕ) (hd : d < cfg.localSize) :
      x.done d .reduce < begunCount x.machine.log d e.key :=
    Nat.lt_of_lt_of_le (hworking d hd) (hkept.taken_after h hd).2.2.2.2.2
  have hturn (d : ℕ) (hd : d < cfg.localSize) := hkept.inTurn h hd
  refine ⟨hkept', ?_⟩
  constructor
  · intro d hd
    exact ⟨congrArg (· + 1) (hx.together d hd).1, (hx.together d hd).2⟩
  · intro d hd hbefore j hj
    have hbefore : x.done d .reduce + 1 < begunCount x.machine.log d e.key := hbefore
    obtain ⟨_, _, _, _, _, _, _⟩ := hturn d hd
    omega
  · intro d hd _ j hj
    have hround : x.done d .copyH2D = x.done d .reduce := by
      have := hlt d hd
      obtain ⟨_, _, _, _, _, _, _⟩ := hturn d hd
      omega
    show e.outElem t offset mem d j = e.total cfg t offset (x.done d .copyH2D) j
    rw [reduce_owned h hroot hrun hd hj, hround]
    refine Finset.sum_congr rfl fun s hs => ?_
    have hs := Finset.mem_range.mp hs
    rw [hx.loaded s hs (hlt s hs) j (lt_of_share hd hj), (hx.together s hs).1,
      (hx.together d hd).1]
  · exact hx.onHost
  · exact hx.pulled
  · intro d hd hbefore
    have hbefore : x.done d .broadcast < x.done d .copyH2D := hbefore
    have := hlt d hd
    obtain ⟨_, _, _, _, _, _, _⟩ := hturn d hd
    omega
  · intro d hd round hdone hbegun
    have hdone : x.done d .broadcast = round + 1 := hdone
    have hbegun : begunCount x.machine.log d e.key = round + 1 := hbegun
    have := hlt d hd
    obtain ⟨_, _, _, _, _, _, _⟩ := hturn d hd
    omega
  · exact hx.pushes
  · exact hx.sums

/-- COPYD2H copies the sum, and not into what another device has copied. -/
theorem copyToHost {d : ℕ} (hs : runCopyToHost cfg e x d = .ok x') :
    e.Kept cfg x' ∧ e.Holds cfg t offset E root x' := by
  obtain ⟨hd, hworking, host, rfl, hhost⟩ := runCopyToHost_cases h hroot hs
  have hkept' := hkept.work hworking ({ x with host := host }.work d .copyD2H) rfl
    fun _ _ => rfl
  have hlt : x.done d .copyD2H < x.done d .reduce :=
    Nat.lt_of_lt_of_le hworking (hkept.taken_after h hd).2.2.2.2.1
  have hturn (i : ℕ) (hi : i < cfg.localSize) := hkept.inTurn h hi
  have hrounds : x.done d .copyH2D = x.done cfg.root .pull ∧ x.done d .copyH2D < x.done d .reduce := by
    obtain ⟨_, _, _, _, _, _, _⟩ := hturn d hd
    omega
  -- the elements of another device stay
  have hother {i j : ℕ} (hi : i < cfg.localSize) (hne : i ≠ d)
      (hj : (share cfg.localSize E root i).Has j) :
      hostElems t offset host 0 j = hostElems t offset x.host 0 j := by
    rw [hhost, if_neg fun hj' => hne (owner_unique hroot hi hd hj hj')]
  refine ⟨hkept', ?_⟩
  constructor
  · exact hx.together
  · exact hx.loaded
  · exact hx.summed
  · intro i hi hcopied j hj
    show hostElems t offset host 0 j = e.total cfg t offset (x.done cfg.root .pull) j
    by_cases hid : i = d
    · subst hid
      rw [hhost, if_pos hj, hx.summed i hi hrounds.2 j hj, hrounds.1]
    · have hcopied : x.done cfg.root .pull <
          x.done i .copyD2H + if QueueType.copyD2H = .copyD2H ∧ i = d then 1 else 0 := hcopied
      rw [if_neg fun hboth => hid hboth.2] at hcopied
      rw [hother hi hid hj, hx.onHost i hi hcopied j hj]
  · intro i hi hpulled j hj
    have hpulled : x.done i .copyH2D < x.done cfg.root .pull := hpulled
    have hid : i ≠ d := by
      rintro rfl
      omega
    exact (hother hi hid hj).trans (hx.pulled i hi hpulled j hj)
  · exact hx.returned
  · exact hx.output
  · exact hx.pushes
  · exact hx.sums

/-- PUSH finds the sum of all elements on the host. -/
theorem push (hs : runPushOnce cfg e x = .ok x') :
    e.Kept cfg x' ∧ e.Holds cfg t offset E root x' := by
  obtain ⟨hworking, vals, rfl, hvals⟩ := runPushOnce_cases h hs
  have hkept' := hkept.work hworking
    ({ x with pushed := x.pushed ++ [vals] }.work cfg.root .push) rfl fun _ _ => rfl
  have hsum : ∀ j < E, elems (getDataTypeLength t.dtype) vals 0 j =
      e.total cfg t offset (x.done cfg.root .push) j := by
    intro j hj
    obtain ⟨d, hd, hown⟩ := exists_owner h hroot hj
    have hcopied := Nat.lt_of_lt_of_le hworking (hkept.taken_after h hd).2.2.2.1
    obtain ⟨_, _, _, _, _, _, _⟩ := hkept.inTurn h hd
    have hround : x.done cfg.root .pull = x.done cfg.root .push := by omega
    rw [hvals, hx.onHost d hd (by omega) j hown, hround]
  refine ⟨hkept', { hx with pushes := ?_, sums := ?_ }⟩
  · show (x.pushed ++ [vals]).length = x.done cfg.root .push + _
    rw [List.length_append, hx.pushes, if_pos ⟨rfl, rfl⟩]
    rfl
  · intro round vals' hvals' j hj
    have hvals' : (x.pushed ++ [vals])[round]? = some vals' := hvals'
    by_cases hround : round < x.pushed.length
    · rw [List.getElem?_append_left hround] at hvals'
      exact hx.sums round vals' hvals' j hj
    · rw [List.getElem?_append_right (Nat.le_of_not_lt hround)] at hvals'
      obtain ⟨hlast, hmem⟩ := List.getElem?_eq_some_iff.mp hvals'
      have hlast : round - x.pushed.length < 1 := hlast
      have hpushes := hx.pushes
      obtain rfl : round = x.done cfg.root .push := by omega
      have hvals' : vals = vals' := by
        rw [← hmem]
        simp
      rw [← hvals', hsum j hj]

omit hroot in
/-- PULL leaves the answer on the host, when all devices have copied to it. -/
theorem pull (hs : runPullOnce cfg e x = .ok x') :
    e.Kept cfg x' ∧ e.Holds cfg t offset E root x' := by
  obtain ⟨hworking, host, rfl, hhost⟩ := runPullOnce_cases h hs
  have hlast : cfg.root < cfg.localSize := h.le_root.mp (Nat.le_refl _)
  have hkept' := hkept.work hworking ({ x with host := host }.work cfg.root .pull) rfl
    fun _ _ => rfl
  have hlt : x.done cfg.root .pull < x.done cfg.root .push :=
    Nat.lt_of_lt_of_le hworking (hkept.taken_after h hlast).2.2.1
  have hturn (d : ℕ) (hd : d < cfg.localSize) := hkept.inTurn h hd
  have hdone : (({ x with host := host } : State β).work cfg.root .pull).done cfg.root .pull =
      x.done cfg.root .pull + 1 := congrArg (_ + ·) (if_pos ⟨rfl, rfl⟩)
  refine ⟨hkept', { hx with onHost := ?_, pulled := ?_, pushes := ?_ }⟩
  · intro d hd hcopied
    rw [hdone] at hcopied
    have hcopied : x.done cfg.root .pull + 1 < x.done d .copyD2H := hcopied
    obtain ⟨_, _, _, _, _, _, _⟩ := hturn d hd
    omega
  · intro d hd hpulled j hj
    have hround : x.done d .copyH2D = x.done cfg.root .pull := by
      rw [hdone] at hpulled
      have hpulled : x.done d .copyH2D < x.done cfg.root .pull + 1 := hpulled
      obtain ⟨_, _, _, _, _, _, _⟩ := hturn d hd
      omega
    show hostElems t offset host 0 j = e.answered t (x.done d .copyH2D) j
    rw [hhost j (lt_of_share hd hj), hround]
    rfl
  · exact hx.pushes

/-- COPYH2D copies the answer, which is on the host until then. -/
theorem copyToDevice {d : ℕ} (hs : runCopyToDevice cfg e x d = .ok x') :
    e.Kept cfg x' ∧ e.Holds cfg t offset E root x' := by
  obtain ⟨hd, hworking, mem, rfl, hmem⟩ := runCopyToDevice_cases h hroot hs
  have hkept' := hkept.work hworking
    ({ x with device := Function.update x.device d mem }.work d .copyH2D) rfl fun _ _ => rfl
  have hlt : x.done d .copyH2D < x.done cfg.root .pull :=
    Nat.lt_of_lt_of_le hworking (hkept.taken_after h hd).2.1
  have hturn := hkept.inTurn h hd
  have hdone : (({ x with device := Function.update x.device d mem } : State β).work
      d .copyH2D).done d .copyH2D = x.done d .copyH2D + 1 := congrArg (_ + ·) (if_pos ⟨rfl, rfl⟩)
  have hdone_ne {i : ℕ} (hid : i ≠ d) :
      (({ x with device := Function.update x.device d mem } : State β).work d .copyH2D).done
        i .copyH2D = x.done i .copyH2D := congrArg (_ + ·) (if_neg fun hboth => hid hboth.2)
  have hother {i j : ℕ} (hid : i ≠ d) : e.outElem t offset (Function.update x.device d mem) i j =
      e.outElem t offset x.device i j := by
    unfold outElem
    rw [Function.update_of_ne hid]
  refine ⟨hkept', { hx with loaded := ?_, summed := ?_, pulled := ?_, returned := ?_, output := ?_ }⟩
  · intro i hi hbefore j hj
    have hbefore : x.done i .reduce < begunCount x.machine.log i e.key := hbefore
    have hid : i ≠ d := by
      rintro rfl
      obtain ⟨_, _, _, _, _, _, _⟩ := hturn
      omega
    show devElems t offset (Function.update x.device d mem i) .tensor j = _
    rw [Function.update_of_ne hid]
    exact hx.loaded i hi hbefore j hj
  · intro i hi hbefore j hj
    have hid : i ≠ d := by
      rintro rfl
      rw [hdone] at hbefore
      have hbefore : x.done i .copyH2D + 1 < x.done i .reduce := hbefore
      obtain ⟨_, _, _, _, _, _, _⟩ := hturn
      omega
    rw [hdone_ne hid] at hbefore ⊢
    exact (hother hid).trans (hx.summed i hi hbefore j hj)
  · intro i hi hbefore j hj
    have hid : i ≠ d := by
      rintro rfl
      rw [hdone] at hbefore
      have hbefore : x.done i .copyH2D + 1 < x.done cfg.root .pull := hbefore
      obtain ⟨_, _, _, _, _, _, _⟩ := hturn
      omega
    rw [hdone_ne hid] at hbefore ⊢
    exact hx.pulled i hi hbefore j hj
  · intro i hi hbefore j hj
    by_cases hid : i = d
    · subst hid
      have hround : x.done i .copyH2D = x.done i .broadcast := by
        obtain ⟨_, _, _, _, _, _, _⟩ := hturn
        omega
      show devElems t offset (Function.update x.device i mem i) _ j =
        e.answered t (x.done i .broadcast) j
      rw [Function.update_self, hmem j hj, hx.pulled i hi hlt j hj, hround]
    · rw [hdone_ne hid] at hbefore
      exact (hother hid).trans (hx.returned i hi hbefore j hj)
  · intro i hi round hround hbegun j hj
    have hround : x.done i .broadcast = round + 1 := hround
    have hbegun : begunCount x.machine.log i e.key = round + 1 := hbegun
    have hid : i ≠ d := by
      rintro rfl
      obtain ⟨_, _, _, _, _, _, _⟩ := hturn
      omega
    exact (hother hid).trans (hx.output i hi round hround hbegun j hj)

/-- BROADCAST hands the answer to every device. -/
theorem broadcast (hs : runCollective cfg e x .broadcast = .ok x') :
    e.Kept cfg x' ∧ e.Holds cfg t offset E root x' := by
  obtain ⟨hworking, mem, hrun, rfl⟩ := runCollective_cases hs
  have hkept' := hkept.workAll hworking ({ x with device := mem }.workAll .broadcast) rfl
    fun _ _ => rfl
  have hlt (d : ℕ) (hd : d < cfg.localSize) : x.done d .broadcast < x.done d .copyH2D :=
    Nat.lt_of_lt_of_le (hworking d hd) (hkept.taken_after h hd).1
  have hturn (d : ℕ) (hd : d < cfg.localSize) := hkept.inTurn h hd
  have hall {d : ℕ} (hd : d < cfg.localSize) {j : ℕ} (hj : j < E) :
      e.outElem t offset mem d j = e.answered t (x.done cfg.root .broadcast) j :=
    broadcast_all h hroot hrun (fun s hs j hj => by
      rw [hx.returned s hs (hlt s hs) j hj, (hx.together s hs).2]) hd hj
  refine ⟨hkept', { hx with
    together := ?_, loaded := ?_, summed := ?_, returned := ?_, output := ?_ }⟩
  · intro d hd
    exact ⟨(hx.together d hd).1, congrArg (· + 1) (hx.together d hd).2⟩
  · intro d hd hbefore
    have hbefore : x.done d .reduce < begunCount x.machine.log d e.key := hbefore
    have := hlt d hd
    obtain ⟨_, _, _, _, _, _, _⟩ := hturn d hd
    omega
  · intro d hd hbefore
    have hbefore : x.done d .copyH2D < x.done d .reduce := hbefore
    have := hlt d hd
    obtain ⟨_, _, _, _, _, _, _⟩ := hturn d hd
    omega
  · intro d hd hbefore
    have hbefore : x.done d .broadcast + 1 < x.done d .copyH2D := hbefore
    obtain ⟨_, _, _, _, _, _, _⟩ := hturn d hd
    omega
  · intro d hd round hround _ j hj
    have hround : x.done d .broadcast + 1 = round + 1 := hround
    obtain rfl : x.done d .broadcast = round := Nat.succ.inj hround
    rw [(hx.together d hd).2]
    exact hall hd hj

omit hroot in
/-- A device that begins a round brings its gradient, and has no other business. -/
theorem machine {a : Machine.Act} (honce : x.machine.OncePerKey a)
    (hs : runMachine cfg e x a = .ok x') : e.Kept cfg x' ∧ e.Holds cfg t offset E root x' := by
  unfold runMachine at hs
  obtain ⟨m, hm, hs⟩ := Outcome.bind_eq_ok hs
  split at hs
  · rename_i hfinished
    cases hs
    obtain ⟨hkept', hbegun⟩ := hkept.machine h honce hm hfinished (e.goOn x m) rfl rfl
    have hturn (d : ℕ) (hd : d < cfg.localSize) := hkept.inTurn h hd
    -- what is finished is done
    have hidle {d : ℕ} (hd : d < cfg.localSize)
        (hleft : (x.machine.view cfg e.key).left d = []) :
        x.done d .broadcast = begunCount x.machine.log d e.key := by
      have hall := hkept.key.finished_of_not_mem (h.le_root.mpr hd) (broadcast_mem cfg.root d)
        (by simp [hleft])
      rw [Machine.finishedCount_view, Machine.begunCount_view] at hall
      have := hkept.finished_le d hd .broadcast (by decide)
      obtain ⟨_, _, _, _, _, _, _⟩ := hturn d hd
      omega
    have hsame {d : ℕ} (heq : begunCount m.log d e.key = begunCount x.machine.log d e.key) :
        (e.goOn x m).device d = x.device d := funext fun b => if_pos heq
    have hnot {d : ℕ} (hd : d < cfg.localSize)
        (hbusy : x.done d .broadcast ≠ begunCount x.machine.log d e.key) :
        begunCount m.log d e.key = begunCount x.machine.log d e.key ∧
          (e.goOn x m).device d = x.device d := by
      rcases hbegun d with heq | ⟨_, hleft⟩
      · exact ⟨heq, hsame heq⟩
      · exact absurd (hidle hd hleft) hbusy
    refine ⟨hkept', { hx with loaded := ?_, summed := ?_, returned := ?_, output := ?_ }⟩
    · intro d hd hbefore j hj
      have hbefore : x.done d .reduce < begunCount m.log d e.key := hbefore
      rcases hbegun d with heq | ⟨hsucc, hleft⟩
      · show devElems t offset ((e.goOn x m).device d) .tensor j = _
        rw [hsame heq]
        exact hx.loaded d hd (heq ▸ hbefore) j hj
      · have hround : x.done d .reduce = begunCount x.machine.log d e.key := by
          have := hidle hd hleft
          obtain ⟨_, _, _, _, _, _, _⟩ := hturn d hd
          omega
        have hne : begunCount m.log d e.key ≠ begunCount x.machine.log d e.key := by omega
        show elems _ (if begunCount m.log d e.key = begunCount x.machine.log d e.key then
          x.device d .tensor else _) offset j = e.gradient t offset (x.done d .reduce) d j
        rw [if_neg hne, h.elems_within d _ _ hj, hround]
        rfl
    · intro d hd hbefore j hj
      have hbefore : x.done d .copyH2D < x.done d .reduce := hbefore
      obtain ⟨_, hdevice⟩ := hnot hd (by
        obtain ⟨_, _, _, _, _, _, _⟩ := hturn d hd
        omega)
      unfold outElem
      rw [hdevice]
      exact hx.summed d hd hbefore j hj
    · intro d hd hbefore j hj
      have hbefore : x.done d .broadcast < x.done d .copyH2D := hbefore
      obtain ⟨_, hdevice⟩ := hnot hd (by
        obtain ⟨_, _, _, _, _, _, _⟩ := hturn d hd
        omega)
      unfold outElem
      rw [hdevice]
      exact hx.returned d hd hbefore j hj
    · intro d hd round hround hrounds j hj
      have hround : x.done d .broadcast = round + 1 := hround
      have hrounds : begunCount m.log d e.key = round + 1 := hrounds
      have heq : begunCount m.log d e.key = begunCount x.machine.log d e.key := by
        rcases hbegun d with heq | ⟨hsucc, _⟩
        · exact heq
        · obtain ⟨_, _, _, _, _, _, _⟩ := hturn d hd
          omega
      unfold outElem
      rw [hsame heq]
      exact hx.output d hd round hround (heq ▸ hrounds) j hj
  · cases hs

omit hroot in
/-- What is written elsewhere on a device is not in the partition. -/
theorem writeDevice (d : ℕ) (mem : DeviceMemory β) {x' : State β}
    (hx' : x' = { x with
      device := Function.update x.device d fun b => e.within d (x.device d b) (mem b) }) :
    e.Kept cfg x' ∧ e.Holds cfg t offset E root x' := by
  have hsame (i : ℕ) (b : Buffer) {j : ℕ} (hj : j < E) :
      devElems t offset (x'.device i) b j = devElems t offset (x.device i) b j := by
    subst hx'
    by_cases hid : i = d
    · subst hid
      unfold devElems
      dsimp only
      rw [Function.update_self]
      exact h.elems_within i _ _ hj
    · dsimp only
      rw [Function.update_of_ne hid]
  refine ⟨hx' ▸ { hkept with }, ?_⟩
  have hx₀ := hx
  subst hx'
  refine { hx₀ with loaded := ?_, summed := ?_, returned := ?_, output := ?_ }
  · intro i hi hbefore j hj
    exact (hsame i .tensor hj).trans (hx.loaded i hi hbefore j hj)
  · intro i hi hbefore j hj
    exact (hsame i _ (lt_of_share hi hj)).trans (hx.summed i hi hbefore j hj)
  · intro i hi hbefore j hj
    exact (hsame i _ (lt_of_share hi hj)).trans (hx.returned i hi hbefore j hj)
  · intro i hi round hround hbegun j hj
    exact (hsame i _ hj).trans (hx.output i hi round hround hbegun j hj)

omit hroot in
/-- What is written elsewhere on the host is not in the partition. -/
theorem writeHost (host : HostMemory β) :
    e.Kept cfg { x with host := fun i => e.within cfg.root (x.host i) (host i) } ∧
      e.Holds cfg t offset E root
        { x with host := fun i => e.within cfg.root (x.host i) (host i) } := by
  have hsame {j : ℕ} (hj : j < E) :
      hostElems t offset (fun i => e.within cfg.root (x.host i) (host i)) 0 j =
        hostElems t offset x.host 0 j := h.elems_within cfg.root _ _ hj
  refine ⟨{ hkept with }, { hx with onHost := ?_, pulled := ?_ }⟩
  · intro d hd hbefore j hj
    exact (hsame (lt_of_share hd hj)).trans (hx.onHost d hd hbefore j hj)
  · intro d hd hbefore j hj
    exact (hsame (lt_of_share hd hj)).trans (hx.pulled d hd hbefore j hj)

end Holds

/-! ### Runs -/

/-- A device adds the task of a key only when it has none of it. -/
def OncePerKey (x : State β) : Act β → Prop
  | .machine a => x.machine.OncePerKey a
  | _ => True

/-- What the loops of a machine arrive at, the work on the partition done at any time in between. -/
def Runs (cfg : Machine.Config) (e : Exchange β) : State β → Prop :=
  Reachable (Started cfg) (Guarded OncePerKey fun x a x' => step cfg e x a = .ok x')

theorem start_holds (hx : Started cfg x) :
    e.Kept cfg x ∧ e.Holds cfg t offset E root x := by
  obtain ⟨hstarted, hdone, hpushed⟩ := hx
  have hbegun (d : ℕ) : begunCount x.machine.log d e.key = 0 := by
    obtain ⟨p, _, hstart⟩ := hstarted
    rw [hstart]
    rfl
  have hkey : (x.machine.view cfg e.key).Inv cfg.root e.key := by
    rw [hstarted.view_eq]
    exact KeyState.inv_start cfg.root e.key
  refine ⟨⟨hstarted.sound, hkey, fun d _ op _ => ?_, fun d _ op _ => ?_⟩, ?_⟩
  · obtain ⟨p, _, hstart⟩ := hstarted
    rw [hstart]
    exact Nat.zero_le _
  · rw [hdone]
    exact Nat.zero_le _
  · constructor
    · intro d hd
      simp only [hdone, and_self]
    · intro d hd hbefore
      rw [hdone, hbegun] at hbefore
      exact absurd hbefore (Nat.lt_irrefl 0)
    · intro d hd hbefore
      rw [hdone, hdone] at hbefore
      exact absurd hbefore (Nat.lt_irrefl 0)
    · intro d hd hbefore
      rw [hdone, hdone] at hbefore
      exact absurd hbefore (Nat.lt_irrefl 0)
    · intro d hd hbefore
      rw [hdone, hdone] at hbefore
      exact absurd hbefore (Nat.lt_irrefl 0)
    · intro d hd hbefore
      rw [hdone, hdone] at hbefore
      exact absurd hbefore (Nat.lt_irrefl 0)
    · intro d hd round hround
      rw [hdone] at hround
      exact absurd hround (Nat.succ_ne_zero round).symm
    · rw [hpushed, hdone]
      rfl
    · intro round vals hvals
      rw [hpushed] at hvals
      cases hvals

theorem step_holds (h : e.Proper cfg t offset E) (hroot : e.Rooted cfg root) (hkept : e.Kept cfg x)
    (hx : e.Holds cfg t offset E root x) {a : Act β} (honce : OncePerKey x a)
    (hs : step cfg e x a = .ok x') : e.Kept cfg x' ∧ e.Holds cfg t offset E root x' := by
  cases a with
  | machine a => exact hx.machine h hkept honce hs
  | nccl stage =>
      cases stage with
      | reduce => exact hx.reduce h hroot hkept hs
      | broadcast => exact hx.broadcast h hroot hkept hs
  | copyDevice2Host d => exact hx.copyToHost h hroot hkept hs
  | push => exact hx.push h hroot hkept hs
  | pull => exact hx.pull h hkept hs
  | copyHost2Device d => exact hx.copyToDevice h hroot hkept hs
  | writeDevice d mem =>
      cases hs
      exact hx.writeDevice h hkept d mem rfl
  | writeHost host =>
      cases hs
      exact hx.writeHost h hkept host

theorem Runs.holds (h : e.Proper cfg t offset E) (hroot : e.Rooted cfg root) (hx : e.Runs cfg x) :
    e.Kept cfg x ∧ e.Holds cfg t offset E root x :=
  Reachable.invariant (P := fun x => e.Kept cfg x ∧ e.Holds cfg t offset E root x)
    (fun _ hstart => start_holds hstart)
    (fun _ _ _ _ hx hs => step_holds h hroot hx.1 hx.2 hs.1 hs.2) hx

/-- One number on each of two devices of a machine, and the sum over the machines 0 and 1. -/
def twoDevices (w : ℕ) : Exchange ℕ where
  roots := none
  key := 7
  task _ := { byteTask with key := 7 }
  written round d _ _ := 10 * w + round + d + 1
  answer round _ := 4 * round + 26

theorem twoDevices_proper (w : ℕ) :
    (twoDevices w).Proper Machine.twoDevices byteTensor 0 1 where
  two := by decide
  partition := { byteTask_partition with key := fun _ => rfl }
  inPlace _ _ _ := rfl
  roots_ne := (Option.some_ne_none []).symm
  roots_lt := fun l hl => absurd hl (Option.not_mem_none l)

def twoDevicesStart : State ℕ where
  machine := Machine.start Machine.twoDevices fun _ => Profile.init
  device _ _ _ := 0
  host _ _ := 0
  done _ _ := 0
  pushed := []

instance (x : State ℕ) : ∀ a, Decidable (OncePerKey x a)
  | .machine a => inferInstanceAs (Decidable (x.machine.OncePerKey a))
  | .nccl _ | .copyDevice2Host _ | .push | .pull | .copyHost2Device _ | .writeDevice _ _
  | .writeHost _ => .isTrue trivial

/-- Both devices of the first machine have gone through a round. -/
theorem exists_twoDevices_round : ∃ x, (twoDevices 0).Runs Machine.twoDevices x ∧
    x.pushed.length = 1 ∧ ∀ d < 2, finishedCount x.machine.log d .broadcast 7 = 1 ∧ begunCount x.machine.log d 7 = 1 := by
  have hrun : (run (fun x a => if OncePerKey x a then step Machine.twoDevices (twoDevices 0) x a
        else .error .notEnabled) twoDevicesStart
      [.machine (.device 0 (.enqueueTensor (manyPartsArgs 1) 0)),
        .machine (.device 0 (.addNext 0)),
        .machine (.device 0 (.getTask .coordinateReduce (fun _ => true) 0)),
        .machine (.device 0 (.finish (Machine.twoDevicesTask peerStages) 0)),
        .machine (.peer 0 (.sendSignal 0)), .machine (.root (.listen .nccl 0)),
        .machine (.device 1 (.enqueueTensor (manyPartsArgs 1) 0)),
        .machine (.device 1 (.addNext 0)),
        .machine (.device 1 (.getTask .reduce (fun _ => true) 0)), .machine (.root .endGroup),
        .machine (.peer 0 (.nonRootNccl (fun _ => true) 0)),
        .machine (.peer 0 (.nonRootNccl (fun _ => true) 0)),
        .nccl .reduce,
        .machine (.device 1 (.syncNccl 0)), .machine (.device 1 (.syncNccl 0)),
        .machine (.device 0 (.syncNccl 0)), .machine (.device 0 (.syncNccl 0)),
        .machine (.device 1 (.getTask .copyD2H (fun _ => true) 0)),
        .copyDevice2Host 1,
        .machine (.device 1 (.finish (Machine.twoDevicesTask (rootStages.drop 1)) 0)),
        .machine (.device 0 (.getTask .copyD2H (fun _ => true) 0)),
        .copyDevice2Host 0,
        .machine (.device 0 (.finish (Machine.twoDevicesTask (peerStages.drop 2)) 0)),
        .machine (.device 0 (.getTask .coordinatePush (fun _ => true) 0)),
        .machine (.device 0 (.finish (Machine.twoDevicesTask (peerStages.drop 3)) 0)),
        .machine (.peer 0 (.sendSignal 0)), .machine (.root (.listen .basic 0)),
        .machine (.device 1 (.getTask .push (fun _ => true) 0)),
        .push,
        .machine (.device 1 (.finish (Machine.twoDevicesTask (rootStages.drop 2)) 0)),
        .machine (.device 1 (.getTask .pull (fun _ => true) 0)),
        .pull,
        .machine (.device 1 (.finish (Machine.twoDevicesTask (rootStages.drop 3)) 0)),
        .machine (.device 1 (.getTask .copyH2D (fun _ => true) 0)),
        .copyHost2Device 1,
        .machine (.device 1 (.finish (Machine.twoDevicesTask (rootStages.drop 4)) 0)),
        .machine (.peer 0 .copyListen),
        .machine (.device 0 (.getTask .copyH2D (fun _ => true) 0)),
        .copyHost2Device 0,
        .machine (.device 0 (.finish (Machine.twoDevicesTask (peerStages.drop 4)) 0)),
        .machine (.device 0 (.getTask .coordinateBroadcast (fun _ => true) 0)),
        .machine (.device 0 (.finish (Machine.twoDevicesTask (peerStages.drop 5)) 0)),
        .machine (.peer 0 (.sendSignal 0)), .machine (.root (.listen .nccl 0)),
        .machine (.device 1 (.getTask .broadcast (fun _ => true) 0)), .machine (.root .endGroup),
        .machine (.peer 0 (.nonRootNccl (fun _ => true) 0)),
        .machine (.peer 0 (.nonRootNccl (fun _ => true) 0)),
        .nccl .broadcast,
        .machine (.device 1 (.syncNccl 0)), .machine (.device 0 (.syncNccl 0))]).toOption.map
      (fun x => (x.pushed.length, [0, 1].map fun d =>
        (begunCount x.machine.log d 7, finishedCount x.machine.log d .broadcast 7))) =
      some (1, [(1, 1), (1, 1)]) := by
    decide +kernel
  obtain ⟨x, hx, hcounts⟩ := Option.map_eq_some_iff.mp hrun
  have hruns : (twoDevices 0).Runs Machine.twoDevices x :=
    reachable_of_guarded_run _ (.start ⟨⟨fun _ => Profile.init, fun _ => rfl, rfl⟩,
      fun _ _ => rfl, rfl⟩) (Outcome.toOption_eq_some hx)
  obtain ⟨hlength, hdevices⟩ := Prod.mk.inj hcounts
  obtain ⟨hzero, hrest⟩ := List.cons_eq_cons.mp hdevices
  have hone := (List.cons_eq_cons.mp hrest).1
  refine ⟨x, hruns, hlength, fun d hd => ?_⟩
  have hd : d = 0 ∨ d = 1 := by omega
  rcases hd with rfl | rfl
  · exact ⟨(Prod.mk.inj hzero).2, (Prod.mk.inj hzero).1⟩
  · exact ⟨(Prod.mk.inj hone).2, (Prod.mk.inj hone).1⟩

end Exchange

end DeepInc.Worker
