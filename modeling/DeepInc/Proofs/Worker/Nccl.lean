/-
What the reduce and the broadcast of a switch do to a partition.

REDUCE leaves every element's sum with the one device that owns it, COPYD2H copies it from
there, COPYH2D brings it back to the owner, and BROADCAST hands it to every device.  The two
stages on both ends are calls of NCCL, which every device of the switch makes.

Both are two calls, one for the chunks all devices have and one for the rest, of which either
may be left out: a reduce-scatter and a reduce, or an all-gather and a broadcast.  With
`BYTEPS_REDUCE_ROOTS` there is only the second.  A call of no elements changes nothing, so both
can be taken as made.

What a call of NCCL does is what its documentation says, of calls that match on all devices.
The calls of a stage do match, since every device computes them from the same partition; who
owns an element by these calls is who owns it by the chunks of `Chunks.lean`.

All this is about the memory `output->data()` points to.  A task on the CPU is copied from and
to the memory of its input instead.
-/
import DeepInc.Proofs.Worker.Chunks
import Mathlib.Algebra.Group.Fin.Basic
import Mathlib.Algebra.Group.Pi.Basic

namespace DeepInc.Worker

open ByteMemory Tiling

variable {β : Type} [∀ dtype, AddCommMonoid (Element β dtype)]
variable {S E offset key : ℕ} {t : Tensor} {task : ℕ → DeviceTask} {mem : ℕ → DeviceMemory β}

/-! ### The two calls of a stage

A split gives every device as many elements and leaves the rest to one of them.  The last
device, or the root of the key, has the rest.
-/

/-- How the elements are split: `num` for every device, and `left` more for the root. -/
structure Split (S E : ℕ) where
  num : ℕ
  left : ℕ
  root : ℤ
  total : S * num + left = E

/-- The split `PostNcclCalls` makes. -/
def splitOf (S E : ℕ) (root : Option ℤ) : Split S E :=
  match root with
  | none => ⟨E / S, E % S, (S - 1 : ℕ), Nat.div_add_mod E S⟩
  | some root => ⟨0, E, root, by rw [Nat.mul_zero, Nat.zero_add]⟩

/-- The elements every device has a chunk of, and those left to the root. -/
def Split.chunk (p : Split S E) (r : ℕ) : Range := ⟨r * p.num, p.num⟩

def Split.rest (p : Split S E) : Range := ⟨S * p.num, p.left⟩

/-- Device `r` owns element `j`. -/
def Split.Owns (p : Split S E) (r j : ℕ) : Prop := (p.chunk r).Has j ∨ p.root = r ∧ p.rest.Has j

/-- What a device owns is its share. -/
theorem owns_iff_share {root : Option ℤ} {r j : ℕ} (hr : r < S) :
    (splitOf S E root).Owns r j ↔ (share S E root r).Has j := by
  have hdiv := Nat.div_add_mod E S
  cases root with
  | none =>
      unfold Split.Owns splitOf Split.chunk Split.rest share Worker.chunk Range.Has Range.stop
      dsimp only
      by_cases hlast : r + 1 = S
      · -- the rest follows the chunk of the last device
        have hnext : S * (E / S) = r * (E / S) + E / S := by
          rw [← hlast, Nat.succ_mul]
        have hroot : ((S - 1 : ℕ) : ℤ) = r := by omega
        rw [if_pos hlast]
        simp only [hroot, true_and]
        generalize E / S = q at *
        omega
      · have hroot : ¬((S - 1 : ℕ) : ℤ) = r := by omega
        rw [if_neg hlast]
        simp only [hroot, false_and, or_false, Nat.add_zero]
  | some root =>
      unfold Split.Owns splitOf Split.chunk Split.rest share Range.Has Range.stop
      dsimp only
      by_cases hroot : root = r
      · rw [if_pos hroot]
        simp only [hroot, true_and]
        omega
      · rw [if_neg hroot]
        simp only [hroot, false_and, or_false]
        omega

/-- The calls of one stage on device `r`: `a` when the chunks have elements, `b` when there is a rest. -/
def stageCalls (p : Split S E) (a b : ℕ → NcclCall) (r : ℕ) : List NcclCall :=
  (if p.num ≠ 0 then [a r] else []) ++ (if p.left ≠ 0 then [b r] else [])

/-- The calls of the devices are the same collective. -/
structure Matching (calls : ℕ → NcclCall) (op : NcclOp) (count : ℕ) (dtype : DataType) : Prop where
  op : ∀ r, (calls r).op = op
  count : ∀ r, (calls r).count = count
  dtype : ∀ r, (calls r).dtype = dtype

/-- A call of no elements changes nothing. -/
theorem collective_zero {calls : ℕ → NcclCall} (h : ∀ r, (calls r).count = 0) :
    collective S calls mem = mem := by
  funext r
  have hput (f : ℕ → Element β (calls r).dtype) :
      Function.update (mem r) (calls r).recvbuff.buffer
        (fill (mem r (calls r).recvbuff.buffer) (calls r).recvbuff.addr 0 f) = mem r := by
    rw [fill_zero, Function.update_eq_self]
  unfold collective
  dsimp only
  rw [h r, Nat.mul_zero]
  split
  · exact hput _
  · split
    · exact hput _
    · rfl
  · exact hput _
  · exact hput _

/-- The rest of a stage after a call that all devices make. -/
theorem runCalls_cons {calls : ℕ → NcclCall} {op : NcclOp} {count : ℕ} {dtype : DataType}
    (h : Matching calls op count dtype) (rest : ℕ → List NcclCall) :
    runCalls S (calls 0 :: rest 0) (fun r => calls r :: rest r) mem =
      runCalls S (rest 0) rest (collective S calls mem) := by
  refine if_pos fun r _ => ?_
  exact ⟨List.cons_ne_nil _ _, (h.op r).trans (h.op 0).symm, (h.count r).trans (h.count 0).symm,
    (h.dtype r).trans (h.dtype 0).symm⟩

theorem runCalls_nil : runCalls S [] (fun _ => []) mem = some mem := if_pos fun _ _ => rfl

/-- **A stage is its two collectives.** -/
theorem runCalls_stage {p : Split S E} {a b : ℕ → NcclCall} {opA opB : NcclOp} {dtype : DataType}
    (ha : Matching a opA p.num dtype) (hb : Matching b opB p.left dtype) :
    runCalls S (stageCalls p a b 0) (stageCalls p a b) mem =
      some (collective S b (collective S a mem)) := by
  have hrest (mem : ℕ → DeviceMemory β) :
      runCalls S (if p.left ≠ 0 then [b 0] else []) (fun r => if p.left ≠ 0 then [b r] else []) mem =
        some (collective S b mem) := by
    by_cases hleft : p.left = 0
    · simp only [hleft, ne_eq, not_true_eq_false, if_false]
      rw [runCalls_nil, collective_zero fun r => (hb.count r).trans hleft]
    · simp only [ne_eq, hleft, not_false_eq_true, if_true]
      rw [runCalls_cons hb (fun _ => []), runCalls_nil]
  unfold stageCalls
  by_cases hnum : p.num = 0
  · simp only [hnum, ne_eq, not_true_eq_false, if_false, List.nil_append]
    rw [collective_zero fun r => (ha.count r).trans hnum]
    exact hrest mem
  · simp only [ne_eq, hnum, not_false_eq_true, if_true, List.singleton_append]
    rw [runCalls_cons ha fun r => if ¬p.left = 0 then [b r] else []]
    exact hrest _

/-! ### What the stages post

`PostNcclCalls` computes addresses and numbers of elements from bytes.  In elements they are
those of a split, and the two stages have the same one.
-/

section Posted

variable (S t task offset)

/-- Where a task on the device is copied from and to once it is reduced. -/
def gpuAddr (task : DeviceTask) : Buffer :=
  if task.device = cpuDeviceId then .tensor else task.outputData

/-- `ncclReduceScatter` -/
def scatterCall (p : Split S E) (r : ℕ) : NcclCall :=
  { op := .reduceScatter
    sendbuff := ⟨.tensor, offset⟩
    recvbuff := ⟨(task r).outputData, offset + r % S * p.num * getDataTypeLength t.dtype⟩
    count := p.num
    dtype := t.dtype }

/-- `ncclReduce` -/
def reduceCall (p : Split S E) (r : ℕ) : NcclCall :=
  { op := .reduce p.root
    sendbuff := ⟨.tensor, offset + S * p.num * getDataTypeLength t.dtype⟩
    recvbuff := ⟨(task r).outputData, offset + S * p.num * getDataTypeLength t.dtype⟩
    count := p.left
    dtype := t.dtype }

/-- `ncclAllGather` -/
def gatherCall (p : Split S E) (r : ℕ) : NcclCall :=
  { op := .allGather
    sendbuff := ⟨gpuAddr (task r), offset + r % S * p.num * getDataTypeLength t.dtype⟩
    recvbuff := ⟨gpuAddr (task r), offset⟩
    count := p.num
    dtype := t.dtype }

/-- `ncclBroadcast` -/
def broadcastCall (p : Split S E) (r : ℕ) : NcclCall :=
  { op := .broadcast p.root
    sendbuff := ⟨gpuAddr (task r), offset + S * p.num * getDataTypeLength t.dtype⟩
    recvbuff := ⟨gpuAddr (task r), offset + S * p.num * getDataTypeLength t.dtype⟩
    count := p.left
    dtype := t.dtype }

end Posted

/-- `len - left_elem * unit_len` -/
theorem rest_start (p : Split S E) (w : ℕ) : E * w - p.left * w = S * p.num * w := by
  rw [← Nat.sub_mul]
  congr 1
  have := p.total
  omega

theorem ncclSplit_eq {roots : Option (List ℤ)} {root : Option ℤ} {w : ℕ} (hw : 0 < w)
    (hroot : chosenRoot roots key = some root) (r : ℕ) :
    ncclSplit (deviceOf S S roots r) key (E * w) w =
      some ((splitOf S E root).num, (splitOf S E root).left, (splitOf S E root).root) := by
  unfold chosenRoot at hroot
  cases roots with
  | none =>
      cases hroot
      unfold ncclSplit
      rw [numElemPerGpu_eq hw, leftElem_eq hw]
      rfl
  | some roots =>
      obtain ⟨chosen, hchosen, rfl⟩ := Option.map_eq_some_iff.mp hroot
      unfold ncclSplit deviceOf
      dsimp only
      rw [hchosen, Nat.mul_div_cancel _ hw]
      rfl

/-- A reduce goes to the output, of a CPU tensor as well. -/
theorem outP_eq (task : DeviceTask) (offset : ℕ) :
    (if task.device = cpuDeviceId ∧ task.sameTensor then (⟨.tensor, offset⟩ : Pointer)
      else ⟨task.outputData, offset⟩) = ⟨task.outputData, offset⟩ := by
  by_cases h : task.device = cpuDeviceId ∧ task.sameTensor = true
  · rw [if_pos h, task.same h.2]
  · rw [if_neg h]

section Post

variable {roots : Option (List ℤ)} {root : Option ℤ}

/-- The calls of both stages. -/
theorem postNcclCalls_eq (hpart : SamePartition task t key offset E)
    (hroot : chosenRoot roots key = some root) (r : ℕ) :
    postNcclCalls (deviceOf S S roots r) (task r) .reduce =
        some (stageCalls (splitOf S E root) (scatterCall S offset t task (splitOf S E root))
          (reduceCall S offset t task (splitOf S E root)) r) ∧
      postNcclCalls (deviceOf S S roots r) (task r) .broadcast =
        some (stageCalls (splitOf S E root) (gatherCall S offset t task (splitOf S E root))
          (broadcastCall S offset t task (splitOf S E root)) r) := by
  have hmod : t.size % t.numElements = 0 := by
    rw [hpart.packed.size]
    exact Nat.mul_mod_right _ _
  have hname : guard ((task r).tensorName ≠ "") = some () := if_pos (hpart.named r)
  have hsplit := ncclSplit_eq (S := S) (E := E) (getDataTypeLength_pos t.dtype) hroot r
  unfold postNcclCalls ncclTensor
  dsimp only
  rw [hpart.tensor r, hpart.output r, hpart.len r, hpart.key r, hpart.offset r]
  simp only [Option.bind_eq_bind, Option.bind_some]
  rw [hpart.packed.unitLen_eq, hsplit, hmod, hname, ite_self]
  simp only [Option.bind_some, outP_eq, rest_start]
  exact ⟨rfl, rfl⟩

end Post

/-! ### What the collectives do to the elements -/

omit [∀ dtype, AddCommMonoid (Element β dtype)] in
/-- A range of elements put into one allocation. -/
theorem devElems_update (m : DeviceMemory β) (offset : ℕ) (b b' : Buffer) (r : Range)
    (f : ℕ → Element β t.dtype) (j : ℕ) :
    devElems t offset (Function.update m b'
        (fill (m b') (offset + r.start * getDataTypeLength t.dtype) r.len f)) b j =
      if b = b' ∧ r.Has j then f (j - r.start) else devElems t offset m b j := by
  unfold devElems
  by_cases hb : b = b'
  · subst hb
    rw [Function.update_self, elems_fill]
    by_cases hhas : r.Has j
    · rw [if_pos hhas, if_pos ⟨rfl, hhas⟩]
    · rw [if_neg hhas, if_neg fun h => hhas h.2]
  · rw [Function.update_of_ne hb, if_neg fun h => hb h.1]

variable (p : Split S E) {r : ℕ}

omit [∀ dtype, AddCommMonoid (Element β dtype)] in
/-- The elements from one of the partition on. -/
theorem elems_devElems (m : DeviceMemory β) (b : Buffer) (s i : ℕ) :
    elems (getDataTypeLength t.dtype) (m b) (offset + s * getDataTypeLength t.dtype) i =
      devElems t offset m b (s + i) := elems_add _ _ _ _

theorem devElems_scatter (hr : r < S) (b : Buffer) (j : ℕ) :
    devElems t offset (collective S (scatterCall S offset t task p) mem r) b j =
      if b = (task r).outputData ∧ (p.chunk r).Has j then
        ∑ s ∈ Finset.range S, devElems t offset (mem s) .tensor j
      else devElems t offset (mem r) b j := by
  have hmod : r % S = r := Nat.mod_eq_of_lt hr
  have hput := devElems_update (mem r) offset b (task r).outputData (p.chunk r)
    (fun i => ∑ s ∈ Finset.range S, devElems t offset (mem s) .tensor (r * p.num + i)) j
  unfold collective scatterCall
  dsimp only
  rw [hmod]
  refine hput.trans ?_
  by_cases h : b = (task r).outputData ∧ (p.chunk r).Has j
  · have hindex : r * p.num + (j - (p.chunk r).start) = j := Nat.add_sub_cancel' h.2.1
    rw [if_pos h, if_pos h, hindex]
  · rw [if_neg h, if_neg h]

theorem devElems_reduce (b : Buffer) (j : ℕ) :
    devElems t offset (collective S (reduceCall S offset t task p) mem r) b j =
      if b = (task r).outputData ∧ p.root = r ∧ p.rest.Has j then
        ∑ s ∈ Finset.range S, devElems t offset (mem s) .tensor j
      else devElems t offset (mem r) b j := by
  have hput := devElems_update (mem r) offset b (task r).outputData p.rest
    (fun i => ∑ s ∈ Finset.range S, devElems t offset (mem s) .tensor (S * p.num + i)) j
  unfold collective reduceCall
  dsimp only
  simp only [elems_devElems]
  by_cases hroot : p.root = r
  · rw [if_pos hroot]
    refine hput.trans ?_
    by_cases h : b = (task r).outputData ∧ p.rest.Has j
    · have hindex : S * p.num + (j - p.rest.start) = j := Nat.add_sub_cancel' h.2.1
      rw [if_pos h, if_pos ⟨h.1, hroot, h.2⟩, hindex]
    · rw [if_neg h, if_neg fun h' => h ⟨h'.1, h'.2.2⟩]
  · rw [if_neg hroot, if_neg fun h => hroot h.2.1]

theorem devElems_gather (b : Buffer) (j : ℕ) :
    devElems t offset (collective S (gatherCall S offset t task p) mem r) b j =
      if b = gpuAddr (task r) ∧ j < S * p.num then
        devElems t offset (mem (j / p.num)) (gpuAddr (task (j / p.num))) j
      else devElems t offset (mem r) b j := by
  have hput := devElems_update (mem r) offset b (gpuAddr (task r)) ⟨0, S * p.num⟩
    (fun i => devElems t offset (mem (i / p.num)) (gpuAddr (task (i / p.num)))
      (i / p.num % S * p.num + i % p.num)) j
  dsimp only at hput
  rw [Nat.zero_mul, Nat.add_zero] at hput
  unfold collective gatherCall
  dsimp only
  simp only [elems_devElems]
  refine hput.trans ?_
  by_cases h : b = gpuAddr (task r) ∧ j < S * p.num
  · have hlt : j / p.num < S := Nat.div_lt_of_lt_mul (by rw [Nat.mul_comm]; exact h.2)
    have hhas : Range.Has ⟨0, S * p.num⟩ j :=
      ⟨Nat.zero_le j, by unfold Range.stop; dsimp only; rw [Nat.zero_add]; exact h.2⟩
    rw [if_pos h, if_pos ⟨h.1, hhas⟩, Nat.sub_zero, Nat.mod_eq_of_lt hlt, Nat.div_add_mod']
  · rw [if_neg h, if_neg]
    intro h'
    have hstop := h'.2.2
    unfold Range.stop at hstop
    dsimp only at hstop
    rw [Nat.zero_add] at hstop
    exact h ⟨h'.1, hstop⟩

theorem devElems_broadcast (b : Buffer) (j : ℕ) :
    devElems t offset (collective S (broadcastCall S offset t task p) mem r) b j =
      if b = gpuAddr (task r) ∧ p.rest.Has j then
        devElems t offset (mem p.root.toNat) (gpuAddr (task p.root.toNat)) j
      else devElems t offset (mem r) b j := by
  have hput := devElems_update (mem r) offset b (gpuAddr (task r)) p.rest
    (fun i => devElems t offset (mem p.root.toNat) (gpuAddr (task p.root.toNat))
      (S * p.num + i)) j
  unfold collective broadcastCall
  dsimp only
  simp only [elems_devElems]
  refine hput.trans ?_
  by_cases h : b = gpuAddr (task r) ∧ p.rest.Has j
  · have hindex : S * p.num + (j - p.rest.start) = j := Nat.add_sub_cancel' h.2.1
    rw [if_pos h, if_pos h, hindex]
  · rw [if_neg h, if_neg h]

/-! ### What the stages do to the elements

An element is in the chunk of one device or in the rest, so that of the two calls one is about
it.
-/

theorem Split.chunk_stop_le (hr : r < S) : (p.chunk r).stop ≤ S * p.num := by
  have hle := Nat.mul_le_mul_right p.num hr
  rw [Nat.succ_mul] at hle
  exact hle

/-- **After REDUCE the owner of an element has its sum.** -/
theorem reduced_owned (hr : r < S) {j : ℕ} (howns : p.Owns r j) :
    devElems t offset (collective S (reduceCall S offset t task p)
        (collective S (scatterCall S offset t task p) mem) r) (task r).outputData j =
      ∑ s ∈ Finset.range S, devElems t offset (mem s) .tensor j := by
  rw [devElems_reduce]
  rcases howns with hchunk | ⟨hroot, hrest⟩
  · have hlt := Nat.lt_of_lt_of_le hchunk.2 (p.chunk_stop_le hr)
    rw [if_neg fun h => Nat.not_lt.mpr h.2.2.1 hlt, devElems_scatter p hr, if_pos ⟨rfl, hchunk⟩]
  · rw [if_pos ⟨rfl, hroot, hrest⟩]
    apply Finset.sum_congr rfl
    intro s hs
    have hs := Finset.mem_range.mp hs
    -- what the first call wrote is not read by the second
    rw [devElems_scatter p hs, if_neg]
    intro h
    exact Nat.not_lt.mpr hrest.1 (Nat.lt_of_lt_of_le h.2.2 (p.chunk_stop_le hs))

/-- **After BROADCAST every device has what the owners had.** -/
theorem broadcast_owned (hroot : 0 ≤ p.root ∧ p.root < S) {f : ℕ → Element β t.dtype}
    (h : ∀ s < S, ∀ j, p.Owns s j → devElems t offset (mem s) (gpuAddr (task s)) j = f j)
    {j : ℕ} (hj : j < E) :
    devElems t offset (collective S (broadcastCall S offset t task p)
        (collective S (gatherCall S offset t task p) mem) r) (gpuAddr (task r)) j = f j := by
  have htotal := p.total
  rw [devElems_broadcast]
  by_cases hlt : j < S * p.num
  · have hnum : 0 < p.num := by
      rcases Nat.eq_zero_or_pos p.num with hzero | hpos
      · rw [hzero] at hlt
        omega
      · exact hpos
    have howner : j / p.num < S := Nat.div_lt_of_lt_mul (by rw [Nat.mul_comm]; exact hlt)
    rw [if_neg fun h => Nat.not_lt.mpr h.2.1 hlt, devElems_gather, if_pos ⟨rfl, hlt⟩]
    exact h _ howner j (.inl ⟨Nat.div_mul_le_self j p.num, Nat.lt_div_mul_add hnum⟩)
  · have hrest : p.rest.Has j := by
      refine ⟨Nat.le_of_not_lt hlt, ?_⟩
      unfold Split.rest Range.stop
      dsimp only
      omega
    have hcast : ((p.root.toNat : ℕ) : ℤ) = p.root := Int.toNat_of_nonneg hroot.1
    rw [if_pos ⟨rfl, hrest⟩, devElems_gather, if_neg fun h => hlt h.2]
    exact h _ (by omega) j (.inr ⟨hcast.symm, hrest⟩)

/-! ### The stages on all devices -/

omit [∀ dtype, AddCommMonoid (Element β dtype)] in
theorem matching_reduce (p : Split S E) :
    Matching (scatterCall S offset t task p) .reduceScatter p.num t.dtype ∧
      Matching (reduceCall S offset t task p) (.reduce p.root) p.left t.dtype :=
  ⟨⟨fun _ => rfl, fun _ => rfl, fun _ => rfl⟩, ⟨fun _ => rfl, fun _ => rfl, fun _ => rfl⟩⟩

omit [∀ dtype, AddCommMonoid (Element β dtype)] in
theorem matching_broadcast (p : Split S E) :
    Matching (gatherCall S offset t task p) .allGather p.num t.dtype ∧
      Matching (broadcastCall S offset t task p) (.broadcast p.root) p.left t.dtype :=
  ⟨⟨fun _ => rfl, fun _ => rfl, fun _ => rfl⟩, ⟨fun _ => rfl, fun _ => rfl, fun _ => rfl⟩⟩

section Stages

variable {roots : Option (List ℤ)} {root : Option ℤ}

/-- The collectives of a stage, of more than one device. -/
theorem runNccl_eq (hpart : SamePartition task t key offset E)
    (hroot : chosenRoot roots key = some root) (hS : 1 < S) (mem : ℕ → DeviceMemory β) :
    runNccl S (deviceOf S S roots) task .reduce mem =
        some (collective S (reduceCall S offset t task (splitOf S E root))
          (collective S (scatterCall S offset t task (splitOf S E root)) mem)) ∧
      runNccl S (deviceOf S S roots) task .broadcast mem =
        some (collective S (broadcastCall S offset t task (splitOf S E root))
          (collective S (gatherCall S offset t task (splitOf S E root)) mem)) := by
  have hpost (r : ℕ) := postNcclCalls_eq (S := S) hpart hroot r
  have hguard {c : Prop} [Decidable c] (hc : c) : (guard c : Option Unit) = some () := if_pos hc
  unfold runNccl
  rw [if_pos hS, if_pos hS, hguard fun r _ => by rw [(hpost r).1]; rfl,
    hguard fun r _ => by rw [(hpost r).2]; rfl]
  simp only [fun r => (hpost r).1, fun r => (hpost r).2, Option.getD_some]
  constructor
  · exact runCalls_stage (matching_reduce _).1 (matching_reduce _).2
  · exact runCalls_stage (matching_broadcast _).1 (matching_broadcast _).2

end Stages

end DeepInc.Worker
