/-
Credits are lent to tasks, and given back.

The `REDUCE` queue of the signal root has credits for so many bytes.  A task takes its length
out of them when it is taken, and puts it back when `FinishOrProceed` reports it, so that at any
time the credits and the lengths of the tasks in flight make what there was at the start.

The sum has to be kept in every step, for all tasks of all tensors in any order.  Two things
could go wrong with it.  The credits are unsigned and a length is an `int`, so that an overflow
would change the sum; but a task is only taken for which there are credits, and what is put back
was taken before.  And a task could be reported with another length than it was taken with; but
the length of a task never changes.

Other queues are not scheduled, and their credits stay as they are.

When no task is in flight there are credits for every task of the queue, since no task is longer
than a partition and the credits are those of whole partitions.
-/
import DeepInc.Proofs.Worker.Callback

namespace DeepInc.Worker

open Transition Outcome

/-- The tasks that were taken for a stage and are not reported finished. -/
def Pipeline.inFlight (s : Pipeline) (op : QueueType) : List Task :=
  s.taken.filter fun t => decide (gotBy s.log t.id = finishedBy s.log t.id ++ [op])

def totalLen (ts : List Task) : ℕ := (ts.map (·.len)).sum

/-! ### What a step lends

Of all steps only two touch the credits of a queue: a loop takes a task from it, and a task is
reported to it.  `Lends` has a constructor for each, and one for all others.
-/

section Steps

variable {setup : Setup} {s s' : Pipeline} {op : QueueType} {now : ℤ}

/-- What a step does to the credits of a scheduled queue, and to what the loops have taken. -/
inductive Lends (s s' : Pipeline) (op : QueueType) : Prop
  | none (hcredits : (s'.queues op).credits = (s.queues op).credits) (htaken : s'.taken = s.taken)
  /-- a loop takes a task, from this queue or from another -/
  | lent (op' : QueueType) (t : Task) (ht : t ∈ (s.queues op').sq)
    (htaken : s'.taken = { t with readyEvent := none } :: s.taken)
    (hlent : op' = op → (s.queues op).isScheduled = true →
      t.len ≤ (s.queues op).credits ∧ (s'.queues op).credits = (s.queues op).credits - t.len)
    (hother : op' ≠ op → (s'.queues op).credits = (s.queues op).credits)
  /-- a task is reported, to this queue or to another -/
  | back (op' : QueueType) (t : Task) (ht : t ∈ s.taken) (hhead : t.queueList.head? = some op')
    (htaken : s'.taken = s.taken.erase t)
    (hback : op' = op → (s'.queues op).credits = ((s.queues op).reportFinish t.len).credits)
    (hother : op' ≠ op → (s'.queues op).credits = (s.queues op).credits)

/-- Adding a task leaves the credits of all queues. -/
theorem credits_setQueue_addTask (op : QueueType) {op' : QueueType} {t : Task} {q : ScheduledQueue}
    (h : (s.queues op').addTask setup.sort t = .ok q) :
    ((s.setQueue op' q).queues op).credits = (s.queues op).credits ∧
      ((s.setQueue op' q).queues op).isScheduled = (s.queues op).isScheduled := by
  unfold Pipeline.setQueue
  by_cases hop : op = op'
  · rw [hop]
    simp only [Function.update_self]
    exact ⟨ScheduledQueue.addTask_credits h, (ScheduledQueue.addTask_spec h).2⟩
  · simp only [Function.update_of_ne hop]
    exact ⟨trivial, trivial⟩

/-- What is true of a queue that is left alone, or replaced by another. -/
theorem queues_setQueue (s : Pipeline) (op op' : QueueType) (q : ScheduledQueue) :
    (s.setQueue op' q).queues op = if op' = op then q else s.queues op := by
  unfold Pipeline.setQueue
  by_cases hop : op' = op
  · rw [if_pos hop, hop]
    exact Function.update_self ..
  · rw [if_neg hop]
    exact Function.update_of_ne (Ne.symm hop) ..

theorem take_lends {op' : QueueType} {q : ScheduledQueue} {t : Task}
    {tables : TableName → ReadyTable}
    (ht : t ∈ (s.queues op').sq) (hq : q.isScheduled = (s.queues op').isScheduled)
    (hlent : op' = op → (s.queues op).isScheduled = true →
      t.len ≤ (s.queues op).credits ∧ q.credits = (s.queues op).credits - t.len)
    (h : take { s with tables := tables } op' q { t with readyEvent := none } now = .ok s') :
    (s'.queues op).isScheduled = (s.queues op).isScheduled ∧ Lends s s' op := by
  obtain ⟨p, _, rfl⟩ := take_cases h
  have hqueue := queues_setQueue s op op' q
  constructor
  · refine (congrArg (·.isScheduled) hqueue).trans ?_
    by_cases hop : op' = op
    · rw [if_pos hop, ← hop]
      exact hq
    · rw [if_neg hop]
  · refine .lent op' t ht rfl ?_ ?_
    · intro hop hsched
      obtain ⟨hle, hcredits⟩ := hlent hop hsched
      refine ⟨hle, (congrArg (·.credits) hqueue).trans ?_⟩
      rw [if_pos hop]
      exact hcredits
    · intro hop
      refine (congrArg (·.credits) hqueue).trans ?_
      rw [if_neg hop]

theorem runGetTask_lends {op' : QueueType} {ready : ℕ → Bool}
    (h : runGetTask setup s op' ready now = .ok s') :
    (s'.queues op).isScheduled = (s.queues op).isScheduled ∧ Lends s s' op := by
  unfold runGetTask at h
  split at h
  · cases h
    exact ⟨rfl, .none rfl rfl⟩
  · rename_i t' q rt hget
    obtain ⟨t, ht', hperm, _, _, hq⟩ := ScheduledQueue.getTask_spec hget
    obtain ⟨tables, htables⟩ := setTable_eq setup s op' rt
    rw [htables, ht'] at h
    refine take_lends (hperm.mem_iff.mpr List.mem_cons_self) hq ?_ h
    intro hop hsched
    rw [hop] at hget
    have hcredits := ScheduledQueue.getTask_credits hsched hget
    rw [ht'] at hcredits
    exact hcredits

theorem runGetTaskOf_lends {op' : QueueType} {key : ℕ} {ready : ℕ → Bool}
    (h : runGetTaskOf s op' key ready now = .ok s') :
    (s'.queues op).isScheduled = (s.queues op).isScheduled ∧ Lends s s' op := by
  unfold runGetTaskOf at h
  obtain ⟨found, hfound, h⟩ := bind_eq_ok h
  have hfound := orStop_eq_ok hfound
  cases found with
  | none =>
      cases h
      exact ⟨rfl, .none rfl rfl⟩
  | some found =>
      obtain ⟨t, ht', hperm, _, hq⟩ := ScheduledQueue.getTaskOf_spec hfound
      have h : take { s with tables := s.tables } op' found.2 found.1 now = .ok s' := h
      rw [ht'] at h
      refine take_lends (hperm.mem_iff.mpr List.mem_cons_self) hq ?_ h
      intro hop hsched
      have hnot := ScheduledQueue.not_isScheduled_of_getTaskOf hfound
      rw [hop, hsched] at hnot
      cases hnot

/-- A task has been reported to the queue of its stage. -/
theorem reported {op' : QueueType} {t : Task} (ht : t ∈ s.taken)
    (hhead : t.queueList.head? = some op') (htaken : s'.taken = s.taken.erase t)
    (hcredits : (s'.queues op).credits =
      (if op' = op then (s.queues op').reportFinish t.len else s.queues op).credits)
    (hsched : (s'.queues op).isScheduled =
      (if op' = op then (s.queues op').reportFinish t.len else s.queues op).isScheduled) :
    (s'.queues op).isScheduled = (s.queues op).isScheduled ∧ Lends s s' op := by
  constructor
  · rw [hsched]
    by_cases hop : op' = op
    · rw [if_pos hop, ScheduledQueue.reportFinish_isScheduled, hop]
    · rw [if_neg hop]
  · refine .back op' t ht hhead htaken ?_ ?_
    · intro hop
      rw [hcredits, if_pos hop, hop]
    · intro hop
      rw [hcredits, if_neg hop]

theorem finishOrProceed_lends {t : Task} (h : finishOrProceed setup s t now = .ok s') :
    (s'.queues op).isScheduled = (s.queues op).isScheduled ∧ Lends s s' op := by
  obtain ⟨ht, op', rest, p, hlist, _, h⟩ := finishOrProceed_cases h
  have hhead : t.queueList.head? = some op' := by rw [hlist]; rfl
  have hreport : (reportTask s t op' p).queues op =
      if op' = op then (s.queues op').reportFinish t.len else s.queues op :=
    queues_setQueue { s with taken := s.taken.erase t } op op' _
  have hcredits := congrArg (·.credits) hreport
  have hsched := congrArg (·.isScheduled) hreport
  rcases h with ⟨next, rest, q, _, hq, rfl⟩ | ⟨_, h⟩
  · have hadd := credits_setQueue_addTask op hq
    exact reported ht hhead rfl (hadd.1.trans hcredits) (hadd.2.trans hsched)
  · obtain ⟨call, _, h⟩ := finishPart_spec h
    rcases h with ⟨_, rfl⟩ | ⟨_, rfl⟩
    · exact reported ht hhead rfl hcredits hsched
    · exact reported ht hhead rfl hcredits hsched

theorem enqueueTensor_lends {args : EnqueueArgs} (h : enqueueTensor setup s args now = .ok s') :
    (s'.queues op).isScheduled = (s.queues op).isScheduled ∧ Lends s s' op := by
  unfold enqueueTensor at h
  obtain ⟨_, _, h⟩ := bind_eq_ok h
  obtain ⟨stages, _, h⟩ := bind_eq_ok h
  obtain ⟨tasks, _, h⟩ := bind_eq_ok h
  cases stages with
  | nil =>
      cases h
      exact ⟨rfl, .none rfl rfl⟩
  | cons op' rest =>
      cases h
      exact ⟨rfl, .none rfl rfl⟩

theorem addNext_lends {call : ℕ} (h : addNext setup s call = .ok s') :
    (s'.queues op).isScheduled = (s.queues op).isScheduled ∧ Lends s s' op := by
  obtain ⟨t, rest, op', q, _, _, hq, rfl⟩ := addNext_cases h
  have hadd := credits_setQueue_addTask op hq
  exact ⟨hadd.2, .none hadd.1 rfl⟩

theorem complete_lends {i : ℕ} (h : complete setup s i now = .ok s') :
    (s'.queues op).isScheduled = (s.queues op).isScheduled ∧ Lends s s' op := by
  unfold complete at h
  cases hc : s.completing[i]? with
  | none =>
      rw [hc] at h
      cases h
  | some c =>
      simp only [hc] at h
      split at h
      · obtain ⟨p, _, h⟩ := bind_eq_ok h
        cases h
        exact ⟨rfl, .none rfl rfl⟩
      · cases h
        exact ⟨rfl, .none rfl rfl⟩
      · obtain ⟨p, _, h⟩ := bind_eq_ok h
        cases h
        exact ⟨rfl, .none rfl rfl⟩

/-- **A step lends credits, gets them back, or leaves them.** -/
theorem step_lends {a : Act} (h : s.step setup a = .ok s') :
    (s'.queues op).isScheduled = (s.queues op).isScheduled ∧ Lends s s' op := by
  cases a with
  | enqueueTensor args now => exact enqueueTensor_lends h
  | addNext call => exact addNext_lends h
  | getTask op' ready now => exact runGetTask_lends h
  | getTaskOf op' key ready now => exact runGetTaskOf_lends h
  | finishOrProceed t now => exact finishOrProceed_lends h
  | complete i now => exact complete_lends h
  | addReadyCount name key =>
      obtain ⟨rt, _, heq⟩ := map_eq_ok h
      subst heq
      exact ⟨rfl, .none rfl rfl⟩
  | reset op' key cnt =>
      cases h
      obtain ⟨tables, htables⟩ :=
        setTable_eq setup s op' ((tableOf setup s op').map (·.setReadyCount key cnt))
      rw [htables]
      exact ⟨rfl, .none rfl rfl⟩

end Steps

/-! ### Lengths -/

/-- No task is longer than a partition. -/
def Pipeline.LensBounded (setup : Setup) (s : Pipeline) : Prop :=
  ∀ x ∈ s.places, x.2.len ≤ setup.partitionBytes

namespace Pipeline.LensBounded

variable {setup : Setup} {s s' : Pipeline}

/-- A task that moves keeps its length. -/
theorem of_move (h : s.LensBounded setup) {pl pl' : Place} {t t' : Task} {R : List (Place × Task)}
    (hbefore : s.places.Perm ((pl, t) :: R)) (hafter : s'.places.Perm ((pl', t') :: R))
    (hlen : t'.len = t.len) : s'.LensBounded setup := by
  intro x hx
  rcases List.mem_cons.mp (hafter.mem_iff.mp hx) with heq | hx
  · have ht := h _ (hbefore.mem_iff.mpr List.mem_cons_self)
    rw [heq]
    exact hlen ▸ ht
  · exact h x (hbefore.mem_iff.mpr (List.mem_cons_of_mem _ hx))

theorem step {a : Act} (h : s.LensBounded setup) (hs : s.step setup a = .ok s') :
    s'.LensBounded setup := by
  cases step_effect hs with
  | quiet _ hplaces =>
      intro x hx
      exact h x (hplaces ▸ hx)
  | enqueued args now issue tasks _ _ _ htasks hplaces =>
      intro x hx
      rcases List.mem_append.mp (hplaces.mem_iff.mp hx) with hx | hx
      · obtain ⟨t, ht, rfl⟩ := List.mem_map.mp hx
        exact htasks.len t ht
      · exact h x hx
  | skipped args now issue _ hplaces =>
      intro x hx
      exact h x (hplaces ▸ hx)
  | added call op t R _ hbefore hafter => exact h.of_move hbefore hafter rfl
  | got _ op t t' now p R ht' hbefore hafter =>
      subst ht'
      exact h.of_move hbefore hafter rfl
  | passed op next rest t now p R _ hbefore hafter => exact h.of_move hbefore hafter rfl
  | counted op t call now p R _ _ hbefore hafter =>
      intro x hx
      exact h x (hbefore.mem_iff.mpr (List.mem_cons_of_mem _ (hafter.mem_iff.mp hx)))
  | completed i now c _ hplaces =>
      intro x hx
      exact h x (hplaces ▸ hx)

end Pipeline.LensBounded

/-- What is in a queue is among the tasks. -/
theorem mem_places_of_queue {s : Pipeline} {op : QueueType} {t : Task}
    (h : t ∈ (s.queues op).sq) : (.queue op, t) ∈ s.places := by
  refine List.mem_append_left _ (List.mem_append_right _ ?_)
  exact List.mem_flatMap.mpr ⟨op, op.mem_all, List.mem_map.mpr ⟨t, h, rfl⟩⟩

theorem mem_places_of_taken {s : Pipeline} {t : Task} (h : t ∈ s.taken) : (.taken, t) ∈ s.places :=
  List.mem_append_right _ (List.mem_map.mpr ⟨t, h, rfl⟩)

/-! ### What is lent

The tasks in flight are read off the loops.  A task that a loop has is at the stage it was taken
for, which is what it is reported to.
-/

/-- The tasks a loop has that are at a stage. -/
def atStage (op : QueueType) (ts : List Task) : List Task :=
  ts.filter fun t => decide (t.queueList.head? = some op)

section AtStage

variable {op : QueueType}

theorem totalLen_cons_self (t : Task) (ts : List Task) (h : t.queueList.head? = some op) :
    totalLen (atStage op (t :: ts)) = t.len + totalLen (atStage op ts) := by
  unfold atStage totalLen
  rw [List.filter_cons, if_pos (decide_eq_true h), List.map_cons, List.sum_cons]

theorem totalLen_cons_ne (t : Task) (ts : List Task) (h : t.queueList.head? ≠ some op) :
    totalLen (atStage op (t :: ts)) = totalLen (atStage op ts) := by
  unfold atStage
  rw [List.filter_cons, if_neg (by simpa using h)]

/-- In another order the lengths make the same. -/
theorem totalLen_perm (op : QueueType) {ts ts' : List Task} (h : ts.Perm ts') :
    totalLen (atStage op ts) = totalLen (atStage op ts') :=
  ((h.filter _).map _).sum_nat

end AtStage

/-- What holds of the `REDUCE` queue of the signal root throughout a run. -/
structure Pipeline.Conserves (setup : Setup) (c : ℕ) (s : Pipeline) : Prop where
  scheduled : (s.queues .reduce).isScheduled = true
  sum : (s.queues .reduce).credits + totalLen (atStage .reduce s.taken) = setup.partitionBytes * c

namespace Pipeline.Conserves

variable {setup : Setup} {c : ℕ} {s s' : Pipeline}

theorem start (hroot : setup.role.isSignalRoot = true)
    (hcredit : setup.schedulingCredit = some (c : ℤ))
    (hc : 1 ≤ c) (hc' : c < 2 ^ 31) (hbytes : setup.partitionBytes < 2 ^ 31) (p : Profile) :
    (Pipeline.start setup p).Conserves setup c := by
  have hcount : ((c : ℤ) % 2 ^ 64).toNat = c := by omega
  have hproduct : setup.partitionBytes * c < 2 ^ 31 * 2 ^ 31 :=
    Nat.mul_lt_mul'' hbytes hc'
  have hqueue : (Pipeline.start setup p).queues .reduce =
      { sq := [], credits := setup.partitionBytes * c, isScheduled := true } := by
    change ScheduledQueue.init .reduce setup.role setup.schedulingCredit setup.partitionBytes = _
    unfold ScheduledQueue.init
    rw [hcredit, hroot]
    simp only [hcount]
    have hne : c ≠ 0 := by omega
    simp only [hne, ne_eq, not_false_eq_true, and_self, decide_true, if_true]
    unfold uint64
    rw [Nat.mod_eq_of_lt (by omega)]
  constructor
  · rw [hqueue]
  · rw [hqueue]
    rfl

theorem step {a : Act} (h : s.Conserves setup c) (hinv : s.Inv setup) (hlens : s.LensBounded setup)
    (hc : c < 2 ^ 31) (hbytes : setup.partitionBytes < 2 ^ 31) (hs : s.step setup a = .ok s') :
    s'.Conserves setup c := by
  obtain ⟨hsched, hlends⟩ := step_lends hs
  refine ⟨hsched.trans h.scheduled, ?_⟩
  have hproduct : setup.partitionBytes * c < 2 ^ 31 * 2 ^ 31 := Nat.mul_lt_mul'' hbytes hc
  have hsum := h.sum
  cases hlends with
  | none hcredits htaken =>
      rw [hcredits, htaken]
      exact hsum
  | lent op t ht htaken hlent hother =>
      obtain ⟨call, issue, hstands⟩ := hinv.stands _ (mem_places_of_queue ht)
      have hhead : t.queueList.head? = some op := hstands.queue op rfl
      rw [htaken]
      by_cases hop : op = .reduce
      · obtain ⟨hle, hcredits⟩ := hlent hop h.scheduled
        rw [hop] at hhead
        rw [hcredits, totalLen_cons_self { t with readyEvent := none } s.taken hhead]
        dsimp only
        omega
      · have hne : t.queueList.head? ≠ some .reduce := by
          rw [hhead]
          exact fun heq => hop (Option.some.inj heq)
        rw [hother hop, totalLen_cons_ne { t with readyEvent := none } s.taken hne]
        exact hsum
  | back op t ht hhead htaken hback hother =>
      have hperm := totalLen_perm .reduce (List.perm_cons_erase ht)
      rw [htaken]
      by_cases hop : op = .reduce
      · rw [hop] at hhead
        rw [totalLen_cons_self t _ hhead] at hperm
        have hlen : t.len ≤ setup.partitionBytes := hlens _ (mem_places_of_taken ht)
        rw [hback hop, ScheduledQueue.reportFinish_credits h.scheduled (by omega) (by omega)]
        omega
      · have hne : t.queueList.head? ≠ some .reduce := by
          rw [hhead]
          exact fun heq => hop (Option.some.inj heq)
        rw [totalLen_cons_ne t _ hne] at hperm
        rw [hother hop, ← hperm]
        exact hsum

end Pipeline.Conserves

/-! ### What holds in every run -/

section Runs

variable {setup : Setup} {c : ℕ} {s : Pipeline}

theorem Pipeline.Reachable.lensBounded (h : Pipeline.Reachable setup s) : s.LensBounded setup := by
  refine Transition.Reachable.invariant (P := fun s => s.LensBounded setup) ?_ ?_ h
  · intro s hs x hx
    obtain ⟨p, _, rfl⟩ := hs
    cases hx
  · intro s a s' _ hlens hs
    exact hlens.step hs

theorem Pipeline.Reachable.conserves (hroot : setup.role.isSignalRoot = true)
    (hcredit : setup.schedulingCredit = some (c : ℤ)) (hc : 1 ≤ c) (hc' : c < 2 ^ 31)
    (hbytes : setup.partitionBytes < 2 ^ 31) (h : Pipeline.Reachable setup s) :
    s.Conserves setup c := by
  refine Transition.Reachable.invariant (P := fun s => s.Conserves setup c) ?_ ?_ h
  · intro s hs
    obtain ⟨p, _, rfl⟩ := hs
    exact .start hroot hcredit hc hc' hbytes p
  · intro s a s' hreach hconserves hs
    have hreach : Pipeline.Reachable setup s := hreach
    exact hconserves.step hreach.inv hreach.lensBounded hc' hbytes hs

/-- The tasks in flight are those at the stage they were taken for. -/
theorem Pipeline.Reachable.inFlight_eq (h : Pipeline.Reachable setup s) (op : QueueType) :
    s.inFlight op = atStage op s.taken := by
  apply List.filter_congr
  intro t ht
  obtain ⟨call, issue, hstands⟩ := h.inv.stands _ (mem_places_of_taken ht)
  have hgot : gotBy s.log t.id = finishedBy s.log t.id ++ t.queueList.take 1 := by
    have hgot := hstands.got
    dsimp only at hgot
    rwa [if_pos rfl] at hgot
  have hleft : t.queueList ≠ [] := hstands.left
  apply decide_eq_decide.mpr
  rw [hgot, List.append_right_inj]
  cases hlist : t.queueList with
  | nil => exact absurd hlist hleft
  | cons op' rest =>
      rw [List.take_succ_cons, List.take_zero, List.head?_cons, List.singleton_inj, Option.some_inj]

/--
**Credits are conserved.**  The credits of the `REDUCE` queue of the signal root and the
lengths of its tasks in flight make what it started with, neither taking nor reporting wraps,
and when no task is in flight there are credits for every task of the queue.  The credit `c`
is what `atoi` makes of the environment.
-/
theorem credits_add_inFlight (hroot : setup.role.isSignalRoot = true)
    (hcredit : setup.schedulingCredit = some (c : ℤ)) (hc : 1 ≤ c) (hc' : c < 2 ^ 31)
    (hbytes : setup.partitionBytes < 2 ^ 31) (h : Pipeline.Reachable setup s) :
    (s.queues .reduce).credits + totalLen (s.inFlight .reduce) = setup.partitionBytes * c ∧
      setup.partitionBytes * c < 2 ^ 64 ∧
      (∀ ready table t q table', (s.queues .reduce).getTask ready table = some (t, q, table') →
        t.len ≤ (s.queues .reduce).credits) ∧
      (∀ t ∈ s.inFlight .reduce,
        (s.queues .reduce).credits + int32 t.len ≤ setup.partitionBytes * c) ∧
      (s.inFlight .reduce = [] →
        ∀ t ∈ (s.queues .reduce).sq, t.len ≤ (s.queues .reduce).credits) := by
  have hconserves := Pipeline.Reachable.conserves hroot hcredit hc hc' hbytes h
  have hsum := hconserves.sum
  have hlens := h.lensBounded
  have hproduct : setup.partitionBytes * c < 2 ^ 31 * 2 ^ 31 := Nat.mul_lt_mul'' hbytes hc'
  rw [h.inFlight_eq]
  refine ⟨hsum, by omega, ?_, ?_, ?_⟩
  · intro ready table t q table' hget
    exact (ScheduledQueue.getTask_credits hconserves.scheduled hget).1
  · intro t ht
    obtain ⟨htaken, hhead⟩ := List.mem_filter.mp ht
    have hlen : t.len ≤ setup.partitionBytes := hlens _ (mem_places_of_taken htaken)
    have hpart := totalLen_perm .reduce (List.perm_cons_erase htaken)
    rw [totalLen_cons_self t _ (of_decide_eq_true hhead)] at hpart
    rw [int32_of_lt (by omega)]
    omega
  · intro hnone t ht
    have hlen : t.len ≤ setup.partitionBytes := hlens _ (mem_places_of_queue ht)
    have hfull : (s.queues .reduce).credits = setup.partitionBytes * c := by
      rw [hnone] at hsum
      exact hsum
    rw [hfull]
    exact hlen.trans (Nat.le_mul_of_pos_right _ hc)

end Runs

/-- The signal root, with credits for one partition. -/
def oneCredit : Setup :=
  { manyParts 2 with
    role := ⟨false, true, false⟩
    schedulingCredit := some 1 }

/-- One partition is in flight, and the other has to wait. -/
theorem credits_add_inFlight_one : ∃ s, Pipeline.Reachable oneCredit s ∧
    totalLen (s.inFlight .reduce) = 4096 ∧ (s.queues .reduce).sq.length = 1 ∧
    (s.queues .reduce).credits + totalLen (s.inFlight .reduce) = 4096 * 1 := by
  have hrun : (run (Pipeline.step oneCredit) (Pipeline.start oneCredit Profile.init)
      [.enqueueTensor (manyPartsArgs 2) 0, .addNext 0, .addNext 0,
        .getTask .reduce (fun _ => true) 0, .getTask .reduce (fun _ => true) 0]).toOption.map
      (fun s => (totalLen (s.inFlight .reduce), (s.queues .reduce).sq.length)) =
      some (4096, 1) := by
    decide +kernel
  obtain ⟨s, hs, heq⟩ := Option.map_eq_some_iff.mp hrun
  obtain ⟨htotal, hlength⟩ := Prod.mk.inj heq
  have hreach : Pipeline.Reachable oneCredit s :=
    reachable_of_run _ (.start ⟨Profile.init, rfl, rfl⟩) (toOption_eq_some hs)
  refine ⟨s, hreach, htotal, hlength, ?_⟩
  exact (credits_add_inFlight rfl rfl (by decide) (by decide) (by decide) hreach).1

end DeepInc.Worker
