/-
Every partition goes through its stages, and the last one calls back.

A call of `EnqueueTensor` makes a task for every partition of its tensor.  Each goes from queue
to queue through the stages that were asked for, and counts itself when it is through; the one
that finds all others counted calls back.

That a task goes through its stages in order, once, is in `Parts.lean`, as an invariant of the
run.  What is added here is when the callback comes.  The counter is an integer of 32 bits and
so is the number it is compared with.  As long as there are no more than `2 ^ 32` partitions,
the comparison is right for the last one and for no other, and there is one callback.

Where the number of partitions is 1 as a 32-bit integer but is not 1, the callback comes with
the first partition that is done, and the others are still to come.  A tensor of `2 ^ 32 + 1`
pages is one.
-/
import DeepInc.Proofs.Worker.Partition
import DeepInc.Proofs.Worker.Parts

namespace DeepInc.Worker

open Transition Outcome

/-! ### Every partition goes through its stages

`RunsThrough` is the state of one call as far as it has got: which partitions are done, what
each of the others has behind it, and whether the callback has come.
-/

/-- How a call of `EnqueueTensor` goes through its stages, as far as it has got. -/
structure RunsThrough (s : Pipeline) (call : ℕ) (issue : Issue) : Prop where
  /-- a partition is taken for its stages in order, each once -/
  inOrder : ∀ i < issue.parts, gotBy s.log (some call, i) <+: issue.stages
  /-- it is taken for a stage when it has finished the one before -/
  finishes : ∀ i < issue.parts, finishedBy s.log (some call, i) <+: gotBy s.log (some call, i) ∧
    (gotBy s.log (some call, i)).length ≤ (finishedBy s.log (some call, i)).length + 1
  /-- it is in one queue at most -/
  oneQueue : ∀ i < issue.parts,
    ((QueueType.all.flatMap fun op => (s.queues op).sq).map Task.id).count (some call, i) ≤ 1
  /-- the call has called back, once, if and only if all partitions are through -/
  calledBack : callbacks s.log call =
    if ∀ i < issue.parts, finishedBy s.log (some call, i) = issue.stages then 1 else 0
  /-- the callback comes with the last stage of the last partition -/
  last : ∀ past, .callback call :: past <:+ s.log →
    ∃ op i before, i < issue.parts ∧ past = .finished op (some call, i) :: before ∧
      (∀ j < issue.parts, finishedBy past (some call, j) = issue.stages) ∧
      finishedBy before (some call, i) ≠ issue.stages

namespace Pipeline.Inv

variable {setup : Setup} {s : Pipeline} {call : ℕ} {issue : Issue} {i : ℕ}

/-- A partition is among the tasks, or through. -/
theorem stands_or_done (h : s.Inv setup) (hissue : s.issued[call]? = some issue) (hi : i < issue.parts) :
    (∃ pl t, t.id = (some call, i) ∧ Stands setup s.issued s.log (pl, t) call issue) ∨
      (some call, i) ∉ s.ids ∧ finishedBy s.log (some call, i) = issue.stages ∧
        gotBy s.log (some call, i) = issue.stages := by
  by_cases hid : (some call, i) ∈ s.ids
  · obtain ⟨⟨pl, t⟩, hx, heq⟩ := List.mem_map.mp hid
    obtain ⟨call', issue', ht⟩ := h.stands _ hx
    obtain rfl : call' = call := Option.some.inj (ht.counter.symm.trans (Prod.mk.inj heq).1)
    obtain rfl := Option.some.inj (ht.issued.symm.trans hissue)
    exact .inl ⟨pl, t, heq, ht⟩
  · exact .inr ⟨hid, h.gone call issue i hissue hi hid⟩

/-- Those that are done have finished, and no others. -/
theorem not_mem_iff_finished (h : s.Inv setup) (hissue : s.issued[call]? = some issue)
    (hi : i < issue.parts) :
    (some call, i) ∉ s.ids ↔ finishedBy s.log (some call, i) = issue.stages := by
  refine ⟨fun hid => (h.gone call issue i hissue hi hid).1, fun hfinished hid => ?_⟩
  obtain ⟨x, hx, heq⟩ := List.mem_map.mp hid
  obtain ⟨call', issue', hstands⟩ := h.stands x hx
  obtain rfl : call' = call := Option.some.inj (hstands.counter.symm.trans (Prod.mk.inj heq).1)
  obtain rfl := Option.some.inj (hstands.issued.symm.trans hissue)
  have hstages := hstands.stages
  rw [heq, hfinished] at hstages
  exact hstands.left (List.append_right_eq_self.mp hstages)

/-- What a task was taken for is what it has finished, and one stage more if a loop has it. -/
theorem got_prefix (h : s.Inv setup) (hissue : s.issued[call]? = some issue) (hi : i < issue.parts) :
    gotBy s.log (some call, i) <+: issue.stages ∧
      finishedBy s.log (some call, i) <+: gotBy s.log (some call, i) ∧
      (gotBy s.log (some call, i)).length ≤ (finishedBy s.log (some call, i)).length + 1 := by
  rcases h.stands_or_done hissue hi with ⟨pl, t, hid, ht⟩ | ⟨_, hfinished, hgot⟩
  · have hgot := ht.got
    have hstages := ht.stages
    dsimp only at hgot hstages
    rw [hid] at hgot hstages
    rw [hgot, ← hstages]
    refine ⟨?_, List.prefix_append _ _, ?_⟩
    · split
      · exact (List.prefix_append_right_inj _).mpr (List.take_prefix 1 _)
      · rw [List.append_nil]
        exact List.prefix_append _ _
    · split
      · rw [List.length_append, List.length_take]
        omega
      · rw [List.append_nil]
        omega
  · rw [hgot, hfinished]
    exact ⟨List.prefix_refl _, List.prefix_refl _, Nat.le_succ _⟩

/-- No task is in two queues, or twice in one. -/
theorem count_queues_le (h : s.Inv setup) (id : TaskId) :
    ((QueueType.all.flatMap fun op => (s.queues op).sq).map Task.id).count id ≤ 1 := by
  have hqueues : (queuePlaces s.queues).map (fun x => x.2.id) =
      (QueueType.all.flatMap fun op => (s.queues op).sq).map Task.id := by
    unfold queuePlaces
    rw [List.map_flatMap, List.map_flatMap]
    simp only [List.map_map]
    rfl
  have hsub : (queuePlaces s.queues).Sublist s.places :=
    ((List.sublist_append_right _ _).trans (List.sublist_append_left _ _))
  rw [← hqueues]
  exact List.nodup_iff_count_le_one.mp (h.nodup.sublist (hsub.map _)) id

end Pipeline.Inv

/--
**Up to `2 ^ 32` partitions, every partition goes through its stages, and the last one calls
back.**

This holds at any time, of every call of `EnqueueTensor` so far: a partition has finished a
prefix of its stages, and the callback has come once if all have finished all of them, and not
at all otherwise.
-/
theorem Pipeline.Reachable.runsThrough {setup : Setup} {s : Pipeline}
    (h : Pipeline.Reachable setup s) {call : ℕ} {issue : Issue}
    (hissue : s.issued[call]? = some issue) (hstages : issue.stages ≠ []) (hpos : 0 < issue.parts)
    (hparts : issue.parts ≤ 2 ^ 32) : RunsThrough s call issue where
  inOrder i hi := (h.inv.got_prefix hissue hi).1
  finishes i hi := (h.inv.got_prefix hissue hi).2
  oneQueue i _ := h.inv.count_queues_le (some call, i)
  calledBack := by
    rw [h.inv.called call issue hissue hstages hpos hparts]
    refine if_congr ?_ rfl rfl
    rw [doneCount_eq_iff]
    exact forall₂_congr fun i hi => h.inv.not_mem_iff_finished hissue hi
  last past hsuffix := h.inv.last _ past hsuffix call issue rfl hissue hstages hpos hparts

/-! ### Many partitions

No run of that length has to be made.  What is needed is a state in which the first of many
partitions has finished its only stage, and that the tasks of the tensor are as many as its
bytes say.
-/

/-- One device, and tensors of `n` partitions of a page. -/
def manyParts (n : ℕ) : Setup where
  partitionBytes := 4096
  role := ⟨false, false, false⟩
  schedulingCredit := none
  readyCount _ := 0
  sort := .insertion
  isTrace := false
  startStep := 0
  endStep := 0
  context _ := ⟨"t", List.range n, List.nodup_range, 0⟩

/-- A tensor of `n` partitions, which is to go through one stage. -/
def manyPartsArgs (n : ℕ) : EnqueueArgs where
  context := 0
  input := some ⟨n * 4096, n * 1024, .float32⟩
  output := some ⟨n * 4096, n * 1024, .float32⟩
  readyEvent := none
  device := 0
  priority := 0
  queueList := [.reduce]

/-- Its partitions. -/
def manyPartsTask (n i : ℕ) : Task :=
  { partitionEntry (n * 4096) 4096 0 (tensorEntry (manyParts n) (manyPartsArgs n) 0 [.reduce]) i with
    key := (List.range n).getD i 0
    context := 0
    part := i }

/-- A tensor of two partitions goes through its stage. -/
theorem runsThrough_two : ∃ s, Pipeline.Reachable (manyParts 2) s ∧ callbacks s.log 0 = 1 ∧
    RunsThrough s 0 ⟨0, [.reduce], 2⟩ := by
  have hrun : (run (Pipeline.step (manyParts 2)) (Pipeline.start (manyParts 2) Profile.init)
      [.enqueueTensor (manyPartsArgs 2) 0, .addNext 0, .addNext 0,
        .getTask .reduce (fun _ => true) 0, .getTask .reduce (fun _ => true) 0,
        .finishOrProceed (manyPartsTask 2 1) 0,
        .finishOrProceed (manyPartsTask 2 0) 0]).toOption.map
      (fun s => (s.issued, callbacks s.log 0)) = some ([⟨0, [.reduce], 2⟩], 1) := by
    decide +kernel
  obtain ⟨s, hs, heq⟩ := Option.map_eq_some_iff.mp hrun
  obtain ⟨hissued, hcallbacks⟩ := Prod.mk.inj heq
  have hreach : Pipeline.Reachable (manyParts 2) s :=
    reachable_of_run _ (.start ⟨Profile.init, rfl, rfl⟩) (toOption_eq_some hs)
  refine ⟨s, hreach, hcallbacks, ?_⟩
  exact hreach.runsThrough (by rw [hissued]; rfl) (List.cons_ne_nil _ _) (by decide) (by decide)

section ManyParts

variable {n : ℕ}

theorem tasksOf_manyParts (hn : n * 4096 < 2 ^ 64) :
    tasksOf (manyParts n) (manyPartsArgs n) 0 [.reduce] =
      .ok ((List.range n).map (manyPartsTask n)) := by
  let entry := tensorEntry (manyParts n) (manyPartsArgs n) 0 [.reduce]
  have hpartition : partitionTensor 4096 0 entry =
      .ok ((List.range (numParts (n * 4096) 4096)).map (partitionEntry (n * 4096) 4096 0 entry)) :=
    partitionTensor_eq rfl ⟨n * 4096, n * 1024, .float32⟩ rfl hn (by decide) (by decide) 0
  have hnum : numParts (n * 4096) 4096 = n := by
    unfold numParts
    omega
  rw [hnum] at hpartition
  unfold tasksOf
  change Except.bind (partitionTensor 4096 0 entry) _ = _
  rw [hpartition]
  simp only [Except.bind, bind, check, List.length_map, manyParts, List.length_range, decide_true,
    if_true]
  refine congrArg Except.ok (List.ext_getElem (by simp) fun i hi hi' => ?_)
  simp [entry, manyPartsTask, manyPartsArgs, manyParts]

/-- The partition the counter says is the last one. -/
theorem finishPart_last {s : Pipeline} {t : Task} {call : ℕ} (hcall : t.counterPtr = some call)
    (hname : t.tensorName ≠ "") (hv : s.counters call = BitVec.ofNat 32 t.totalPartnum - 1) :
    ∃ s', finishPart s t = .ok s' ∧ s'.issued = s.issued ∧ s'.log = .callback call :: s.log := by
  unfold finishPart
  rw [hcall]
  dsimp only
  rw [if_pos hv, decide_eq_true hname]
  exact ⟨_, rfl, rfl, rfl⟩

/-- The first partition that is done calls back if their number is 1 as a 32-bit integer. -/
theorem first_calls_back (hpos : 0 < n) (hn : n * 4096 < 2 ^ 64) (hone : uint32 n = 1) :
    ∃ s, Pipeline.Reachable (manyParts n) s ∧ s.issued = [⟨0, [.reduce], n⟩] ∧
      s.log = [.callback 0, .finished .reduce (some 0, 0), .got .reduce (some 0, 0)] := by
  obtain ⟨t, rest, ht, hrest⟩ : ∃ t rest, t = manyPartsTask n 0 ∧
      (List.range n).map (manyPartsTask n) = t :: rest := by
    obtain ⟨m, rfl⟩ : ∃ m, n = m + 1 := ⟨n - 1, by omega⟩
    rw [List.range_succ_eq_map]
    exact ⟨_, _, rfl, rfl⟩
  have hlength : (t :: rest).length = n := by rw [← hrest, List.length_map, List.length_range]
  have htasks := tasksOf_manyParts hn
  rw [hrest] at htasks
  have hname : t.tensorName ≠ "" := by
    rw [ht]
    simp [manyPartsTask, partitionEntry, tensorEntry, manyParts]
  let s₀ := Pipeline.start (manyParts n) Profile.init
  let s₁ : Pipeline := { s₀.setProfile 0 Profile.init with
    issued := [⟨0, [.reduce], (t :: rest).length⟩]
    adding := [t :: rest] }
  let queue (sq : List Task) : ScheduledQueue :=
    { sq := sq, credits := 34359738368, isScheduled := false }
  let s₂ : Pipeline := { s₁.setQueue .reduce (queue [t]) with adding := [rest] }
  let s₃ := { s₂.setQueue .reduce (queue []) with
    taken := [t]
    log := [.got .reduce t.id] }.setProfile 0 Profile.init
  let s₄ : Pipeline := { ((s₃.setQueue .reduce (queue [])).setProfile 0 Profile.init).record
    (.finished .reduce t.id) with taken := [t].erase t }
  have h₁ : s₀.step (manyParts n) (.enqueueTensor (manyPartsArgs n) 0) = .ok s₁ := by
    have hcheck : checkTensors (manyPartsArgs n) = .ok () := if_pos (decide_eq_true rfl)
    simp only [Pipeline.step, enqueueTensor, hcheck]
    change (orStop (tasksOf (manyParts n) (manyPartsArgs n) 0 [.reduce])).bind _ = _
    rw [htasks]
    rfl
  have h₂ : s₁.step (manyParts n) (.addNext 0) = .ok s₂ := by
    have hadd : (s₁.queues .reduce).addTask (manyParts n).sort t = .ok (queue [t]) := by
      unfold ScheduledQueue.addTask
      rw [decide_eq_true hname]
      rfl
    have heq : s₁.step (manyParts n) (.addNext 0) =
        (orStop ((s₁.queues .reduce).addTask (manyParts n).sort t)).bind fun q =>
          .ok { s₁.setQueue .reduce q with adding := s₁.adding.set 0 rest } := rfl
    rw [heq, hadd]
    rfl
  have h₃ : s₂.step (manyParts n) (.getTask .reduce (fun _ => true) 0) = .ok s₃ := by
    subst ht
    rfl
  have h₄ : s₃.step (manyParts n) (.finishOrProceed t 0) = finishPart s₄ t := by
    subst ht
    exact if_pos List.mem_cons_self
  have hlast : s₄.counters 0 = BitVec.ofNat 32 t.totalPartnum - 1 := by
    have htotal : t.totalPartnum = uint32 (List.range n).length := by
      subst ht
      rfl
    rw [htotal, List.length_range, hone]
    rfl
  obtain ⟨s', hs', hissued, hlog⟩ := finishPart_last (by subst ht; rfl) hname hlast
  have hreach : Pipeline.Reachable (manyParts n) s' :=
    .next (.next (.next (.next (.start ⟨Profile.init, rfl, rfl⟩) h₁) h₂) h₃) (h₄.trans hs')
  refine ⟨s', hreach, ?_, ?_⟩
  · rw [hissued]
    exact congrArg (fun parts => [(⟨0, [.reduce], parts⟩ : Issue)]) hlength
  · have hid : t.id = (some 0, 0) := by
      subst ht
      rfl
    rw [hlog, ← hid]
    rfl

end ManyParts

/-- With `2 ^ 32 + 1` partitions the first one calls back. -/
theorem first_of_many_calls_back : ¬∀ (setup : Setup) (s : Pipeline) (call : ℕ) (issue : Issue),
    Pipeline.Reachable setup s → s.issued[call]? = some issue → issue.stages ≠ [] →
      0 < issue.parts → RunsThrough s call issue := by
  intro h
  obtain ⟨s, hreach, hissued, hlog⟩ :=
    first_calls_back (show 0 < 2 ^ 32 + 1 by omega) (by omega) (show uint32 (2 ^ 32 + 1) = 1 by rfl)
  have hruns := h _ s 0 ⟨0, [.reduce], 2 ^ 32 + 1⟩ hreach (by rw [hissued]; rfl)
    (List.cons_ne_nil _ _) (Nat.succ_pos _)
  have hcalled := hruns.calledBack
  rw [hlog, if_neg] at hcalled
  · exact absurd hcalled (by decide)
  · intro hall
    exact absurd (hall 1 (by simp)) (by decide)

end DeepInc.Worker
