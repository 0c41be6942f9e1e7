/-
What is known of the partitions of a tensor throughout a run.

A tensor is enqueued as one task for each of its partitions, and these go their own ways: other
tensors are in the same queues, and loops take and hand back tasks in any order.  This is the
invariant that keeps track of them.

What the stages of a task have done is read off the record of the run: with what it still has to
do it makes the stages of its tensor.  A task is at one place; when it is at none, it has done
all.

The counter of a call holds the number of partitions that are done, as a 32-bit integer, and is
compared with the number of partitions as one.  With at most `2 ^ 32` partitions it is equal to
that number only when all others are done, so that the last one calls back, once, right after it
has finished its last stage.

The steps are those of `Pipeline.lean`, by their effects: a task comes in, is added, is taken,
is passed on, or is done.
-/
import DeepInc.Proofs.Worker.Pipeline

namespace DeepInc.Worker

open Transition

/-! ### Reading the record -/

/-- The stages a task was taken for, in order. -/
def gotBy (log : List Event) (id : TaskId) : List QueueType :=
  log.reverse.filterMap fun e => match e with
    | .got op id' => if id' = id then some op else none
    | _ => none

/-- The stages a task has finished, in order. -/
def finishedBy (log : List Event) (id : TaskId) : List QueueType :=
  log.reverse.filterMap fun e => match e with
    | .finished op id' => if id' = id then some op else none
    | _ => none

/-- How often a call has called back. -/
def callbacks (log : List Event) (call : ℕ) : ℕ := log.count (.callback call)

section Log

variable {log : List Event} {op : QueueType} {id id' : TaskId} {call call' : ℕ}

@[simp] theorem gotBy_got :
    gotBy (.got op id' :: log) id = gotBy log id ++ if id' = id then [op] else [] := by
  unfold gotBy
  rw [List.reverse_cons, List.filterMap_append]
  by_cases h : id' = id <;> simp [h]

@[simp] theorem gotBy_finished : gotBy (.finished op id' :: log) id = gotBy log id := by
  simp [gotBy]

@[simp] theorem gotBy_callback : gotBy (.callback call :: log) id = gotBy log id := by
  simp [gotBy]

@[simp] theorem finishedBy_got : finishedBy (.got op id' :: log) id = finishedBy log id := by
  simp [finishedBy]

@[simp] theorem finishedBy_finished :
    finishedBy (.finished op id' :: log) id = finishedBy log id ++ if id' = id then [op] else [] := by
  unfold finishedBy
  rw [List.reverse_cons, List.filterMap_append]
  by_cases h : id' = id <;> simp [h]

@[simp] theorem finishedBy_callback : finishedBy (.callback call :: log) id = finishedBy log id := by
  simp [finishedBy]

@[simp] theorem callbacks_got : callbacks (.got op id :: log) call = callbacks log call :=
  List.count_cons_of_ne (by simp)

@[simp] theorem callbacks_finished : callbacks (.finished op id :: log) call = callbacks log call :=
  List.count_cons_of_ne (by simp)

@[simp] theorem callbacks_callback : callbacks (.callback call' :: log) call =
    callbacks log call + if call' = call then 1 else 0 := by
  unfold callbacks
  by_cases h : call' = call
  · rw [h, List.count_cons_self, if_pos rfl]
  · rw [List.count_cons_of_ne (by simp [h]), if_neg h, Nat.add_zero]

end Log

/-! ### Counting what is done

How many are done is counted by the parts that are not among the tasks.  That agrees with the
counter, since a part leaves the tasks in the same step.
-/

/-- How many of the first `n` parts of a call are not among the tasks any more. -/
def doneCount (ids : List TaskId) (call n : ℕ) : ℕ :=
  (List.range n).countP fun i => (some call, i) ∉ ids

section DoneCount

variable {ids ids' : List TaskId} {call call' i n : ℕ}

theorem doneCount_congr (h : ∀ i < n, (some call, i) ∈ ids ↔ (some call, i) ∈ ids') :
    doneCount ids call n = doneCount ids' call n := by
  apply List.countP_congr
  intro i hi
  simp only [decide_eq_true_iff]
  exact not_congr (h i (List.mem_range.mp hi))

theorem doneCount_le (ids : List TaskId) (call n : ℕ) : doneCount ids call n ≤ n := by
  have := List.countP_le_length (l := List.range n) (p := fun i => decide ((some call, i) ∉ ids))
  rwa [List.length_range] at this

theorem doneCount_eq_iff : doneCount ids call n = n ↔ ∀ i < n, (some call, i) ∉ ids := by
  have hlength := List.countP_eq_length (l := List.range n)
    (p := fun i => decide ((some call, i) ∉ ids))
  rw [List.length_range] at hlength
  unfold doneCount
  rw [hlength]
  simp only [List.mem_range, decide_eq_true_iff]

/-- A part that is among the tasks is not done. -/
theorem doneCount_lt (hi : i < n) (h : (some call, i) ∈ ids) : doneCount ids call n < n := by
  apply Nat.lt_of_le_of_ne (doneCount_le ids call n)
  intro hall
  exact doneCount_eq_iff.mp hall i hi h

/-- Of other parts nothing changes. -/
theorem mem_cons_iff_of_ne {id id' : TaskId} (h : id' ≠ id) : id' ∈ id :: ids ↔ id' ∈ ids := by
  rw [List.mem_cons]
  exact or_iff_right h

/-- One more is done. -/
theorem doneCount_cons (hi : i < n) (h : (some call, i) ∉ ids) :
    doneCount ids call n = doneCount ((some call, i) :: ids) call n + 1 := by
  have hother {j : ℕ} (hj : j ≠ i) : (some call, j) ∈ (some call, i) :: ids ↔ (some call, j) ∈ ids :=
    mem_cons_iff_of_ne fun heq => hj (Prod.mk.inj heq).2
  induction n with
  | zero => omega
  | succ n ih =>
      unfold doneCount at ih ⊢
      rw [List.range_succ, List.countP_append, List.countP_append, List.countP_singleton,
        List.countP_singleton]
      by_cases hin : n = i
      · subst hin
        have hsame : doneCount ids call n = doneCount ((some call, n) :: ids) call n :=
          doneCount_congr fun j hj => (hother (Nat.ne_of_lt hj)).symm
        unfold doneCount at hsame
        rw [hsame]
        simp [h]
      · simp only [hother hin]
        rw [ih (by omega)]
        omega

/-- The counter is compared with the number of parts less one, both as 32-bit integers. -/
theorem ofNat_eq_pred_iff {d : ℕ} (hd : d < n) (hn : n ≤ 2 ^ 32) :
    BitVec.ofNat 32 d = BitVec.ofNat 32 (uint32 n) - 1#32 ↔ d + 1 = n := by
  unfold uint32
  simp only [← BitVec.toNat_inj, BitVec.toNat_sub, BitVec.toNat_ofNat]
  omega

end DoneCount

/-! ### The invariant

For a task that is there, `Stands` says what its call is and what it has behind it.  For a call,
the invariant says how many of its parts are done, and whether it has called back.
-/

/-- A task at its place, of a call. -/
structure Stands (setup : Setup) (issued : List Issue) (log : List Event) (x : Place × Task)
    (call : ℕ) (issue : Issue) : Prop where
  issued : issued[call]? = some issue
  counter : x.2.counterPtr = some call
  part : x.2.part < issue.parts
  total : x.2.totalPartnum = uint32 issue.parts
  context : x.2.context = issue.context
  key : x.2.key = (setup.context issue.context).keyList.getD x.2.part 0
  /-- what is finished and what is left make the stages -/
  stages : finishedBy log x.2.id ++ x.2.queueList = issue.stages
  left : x.2.queueList ≠ []
  /-- a task that a loop has is one stage ahead -/
  got : gotBy log x.2.id =
    finishedBy log x.2.id ++ if x.1 = .taken then x.2.queueList.take 1 else []
  adding : ∀ c, x.1 = .adding c → c = call ∧ finishedBy log x.2.id = []
  queue : ∀ op, x.1 = .queue op → x.2.queueList.head? = some op

namespace Stands

variable {setup : Setup} {issued more : List Issue} {log log' : List Event} {x : Place × Task}
  {call : ℕ} {issue : Issue}

theorem id_eq (h : Stands setup issued log x call issue) : x.2.id = (some call, x.2.part) := by
  unfold Task.id
  rw [h.counter]

/-- Later calls are of no matter. -/
theorem extend (h : Stands setup issued log x call issue) :
    Stands setup (issued ++ more) log x call issue :=
  { h with
    issued := by
      rw [List.getElem?_append_left (List.getElem?_eq_some_iff.mp h.issued).1]
      exact h.issued }

/-- What is written down of other tasks is of no matter. -/
theorem of_log (h : Stands setup issued log x call issue)
    (hgot : gotBy log' x.2.id = gotBy log x.2.id)
    (hfinished : finishedBy log' x.2.id = finishedBy log x.2.id) :
    Stands setup issued log' x call issue :=
  { h with
    stages := by rw [hfinished]; exact h.stages
    got := by rw [hgot, hfinished]; exact h.got
    adding := by rw [hfinished]; exact h.adding }

end Stands

/-- The callback of a call comes right after the last of its parts has finished its last stage. -/
def LastFinishes (issued : List Issue) (e : Event) (past : List Event) : Prop :=
  ∀ call issue, e = .callback call → issued[call]? = some issue → issue.stages ≠ [] →
    0 < issue.parts → issue.parts ≤ 2 ^ 32 →
    ∃ op i before, i < issue.parts ∧ past = .finished op (some call, i) :: before ∧
      (∀ j < issue.parts, finishedBy past (some call, j) = issue.stages) ∧
      finishedBy before (some call, i) ≠ issue.stages

/-- What holds throughout a run. -/
structure Pipeline.Inv (setup : Setup) (s : Pipeline) : Prop where
  lengths : s.adding.length = s.issued.length
  nodup : s.ids.Nodup
  stands : ∀ x ∈ s.places, ∃ call issue, Stands setup s.issued s.log x call issue
  gone : ∀ call issue i, s.issued[call]? = some issue → i < issue.parts →
    (some call, i) ∉ s.ids → finishedBy s.log (some call, i) = issue.stages ∧
      gotBy s.log (some call, i) = issue.stages
  counter : ∀ call issue, s.issued[call]? = some issue → issue.stages ≠ [] →
    s.counters call = BitVec.ofNat 32 (doneCount s.ids call issue.parts)
  called : ∀ call issue, s.issued[call]? = some issue → issue.stages ≠ [] → 0 < issue.parts →
    issue.parts ≤ 2 ^ 32 →
    callbacks s.log call = if doneCount s.ids call issue.parts = issue.parts then 1 else 0
  fresh : ∀ call, s.issued.length ≤ call → s.counters call = 0 ∧ callbacks s.log call = 0 ∧
    ∀ i, finishedBy s.log (some call, i) = [] ∧ gotBy s.log (some call, i) = []
  last : Always (LastFinishes s.issued) s.log

theorem Pipeline.inv_start (setup : Setup) (p : Profile) : (Pipeline.start setup p).Inv setup where
  lengths := rfl
  nodup := by
    have hplaces : (Pipeline.start setup p).places = [] := rfl
    unfold Pipeline.ids
    rw [hplaces]
    exact .nil
  stands := fun x hx => by cases hx
  gone := fun _ _ _ h => by cases h
  counter := fun _ _ h => by cases h
  called := fun _ _ h => by cases h
  fresh := fun _ _ => ⟨rfl, rfl, fun _ => ⟨rfl, rfl⟩⟩
  last := always_nil

namespace Pipeline.Inv

variable {setup : Setup} {s s' : Pipeline}

/-- One task among the others. -/
theorem pick (h : s.Inv setup) {pl : Place} {t : Task} {R : List (Place × Task)}
    (hbefore : s.places.Perm ((pl, t) :: R)) :
    (∃ call issue, Stands setup s.issued s.log (pl, t) call issue) ∧
      (∀ x ∈ R, x.2.id ≠ t.id ∧ ∃ call issue, Stands setup s.issued s.log x call issue) ∧
      s.ids.Perm (t.id :: R.map fun x => x.2.id) ∧ t.id ∉ R.map fun x => x.2.id := by
  have hids : s.ids.Perm (t.id :: R.map fun x => x.2.id) := hbefore.map _
  have hnot := (List.nodup_cons.mp (hids.nodup_iff.mp h.nodup)).1
  refine ⟨h.stands _ (hbefore.mem_iff.mpr List.mem_cons_self), fun x hx => ⟨?_, ?_⟩, hids, hnot⟩
  · intro heq
    exact hnot (heq ▸ List.mem_map_of_mem hx)
  · exact h.stands x (hbefore.mem_iff.mpr (List.mem_cons_of_mem _ hx))

/-- Nothing that matters has changed. -/
theorem of_same (h : s.Inv setup) (hplaces : s'.places = s.places)
    (hadding : s'.adding.length = s.adding.length) (hissued : s'.issued = s.issued)
    (hcounters : s'.counters = s.counters) (hlog : s'.log = s.log) : s'.Inv setup := by
  have hids : s'.ids = s.ids := congrArg (List.map _) hplaces
  constructor
  · rw [hadding, hissued]; exact h.lengths
  · rw [hids]; exact h.nodup
  · rw [hplaces, hissued, hlog]; exact h.stands
  · rw [hissued, hids, hlog]; exact h.gone
  · rw [hissued, hids, hcounters]; exact h.counter
  · rw [hissued, hids, hlog]; exact h.called
  · rw [hissued, hcounters, hlog]; exact h.fresh
  · rw [hissued, hlog]; exact h.last

/-- One task has moved, and something is written down of it. -/
theorem of_move (h : s.Inv setup) {pl pl' : Place} {t t' : Task} {R : List (Place × Task)}
    (hbefore : s.places.Perm ((pl, t) :: R)) (hafter : s'.places.Perm ((pl', t') :: R))
    (hid : t'.id = t.id) (hadding : s'.adding.length = s.adding.length)
    (hissued : s'.issued = s.issued) (hcounters : s'.counters = s.counters)
    (hlog : ∀ id ≠ t.id, gotBy s'.log id = gotBy s.log id ∧
      finishedBy s'.log id = finishedBy s.log id)
    (hcallbacks : ∀ call, callbacks s'.log call = callbacks s.log call)
    (hlast : Always (LastFinishes s.issued) s'.log)
    (hstands : ∀ call issue, Stands setup s.issued s.log (pl, t) call issue →
      Stands setup s.issued s'.log (pl', t') call issue) : s'.Inv setup := by
  obtain ⟨⟨call, issue, ht⟩, hR, hids, hnot⟩ := h.pick hbefore
  have hids' : s'.ids.Perm s.ids := by
    have hafter : s'.ids.Perm (t'.id :: R.map fun x => x.2.id) := hafter.map _
    rw [hid] at hafter
    exact hafter.trans hids.symm
  have hmem (id : TaskId) : id ∈ s'.ids ↔ id ∈ s.ids := hids'.mem_iff
  have hdone (c n : ℕ) : doneCount s'.ids c n = doneCount s.ids c n :=
    doneCount_congr fun i _ => hmem _
  have htid : t.id ∈ s.ids := hids.mem_iff.mpr List.mem_cons_self
  constructor
  · rw [hadding, hissued]; exact h.lengths
  · exact hids'.nodup_iff.mpr h.nodup
  · intro x hx
    rw [hissued]
    rcases List.mem_cons.mp (hafter.mem_iff.mp hx) with rfl | hx
    · exact ⟨call, issue, hstands call issue ht⟩
    · obtain ⟨hne, call', issue', hx'⟩ := hR x hx
      exact ⟨call', issue', hx'.of_log (hlog _ hne).1 (hlog _ hne).2⟩
  · intro c issue' i hissue hi hgone
    rw [hissued] at hissue
    have hgone : (some c, i) ∉ s.ids := fun hin => hgone ((hmem _).mpr hin)
    have hne : (some c, i) ≠ t.id := fun heq => hgone (heq ▸ htid)
    rw [(hlog _ hne).1, (hlog _ hne).2]
    exact h.gone c issue' i hissue hi hgone
  · intro c issue'
    rw [hissued, hcounters, hdone]
    exact h.counter c issue'
  · intro c issue'
    rw [hissued, hdone, hcallbacks]
    exact h.called c issue'
  · intro c hc
    rw [hissued] at hc
    have hne (i : ℕ) : (some c, i) ≠ t.id := by
      intro heq
      rw [ht.id_eq] at heq
      have hlt := (List.getElem?_eq_some_iff.mp ht.issued).1
      have := Option.some.inj (Prod.mk.inj heq).1
      omega
    obtain ⟨hcounter, hcalls, hlogs⟩ := h.fresh c hc
    rw [hcounters, hcallbacks]
    refine ⟨hcounter, hcalls, fun i => ?_⟩
    rw [(hlog _ (hne i)).1, (hlog _ (hne i)).2]
    exact hlogs i
  · rw [hissued]; exact hlast

/-- The partition an `EnqueueTensor` adds next goes to the queue of its first stage. -/
theorem of_added (h : s.Inv setup) {call : ℕ} {op : QueueType} {t : Task} {R : List (Place × Task)}
    (hstage : ((s.issued.map (·.stages)).getD call []).head? = some op)
    (hbefore : s.places.Perm ((.adding call, t) :: R))
    (hafter : s'.places.Perm ((.queue op, t) :: R))
    (hadding : s'.adding.length = s.adding.length) (hissued : s'.issued = s.issued)
    (hcounters : s'.counters = s.counters) (hlog : s'.log = s.log) : s'.Inv setup := by
  refine h.of_move hbefore hafter rfl hadding hissued hcounters (fun id _ => ?_) (fun c => ?_) ?_ ?_
  · rw [hlog]
    exact ⟨rfl, rfl⟩
  · rw [hlog]
  · rw [hlog]
    exact h.last
  · intro call' issue ht
    rw [hlog]
    obtain ⟨rfl, hfinished⟩ := ht.adding call rfl
    refine { ht with
      got := ht.got
      adding := fun c hc => by cases hc
      queue := ?_ }
    intro op' hop
    cases hop
    have hstages := ht.stages
    rw [hfinished, List.nil_append] at hstages
    rw [hstages, ← hstage, List.getD_eq_getElem?_getD, List.getElem?_map, ht.issued]
    rfl

/-- A loop takes a task from the queue of its stage. -/
theorem of_got (h : s.Inv setup) {op : QueueType} {t t' : Task} {R : List (Place × Task)}
    (ht' : t' = { t with readyEvent := none }) (hbefore : s.places.Perm ((.queue op, t) :: R))
    (hafter : s'.places.Perm ((.taken, t') :: R))
    (hadding : s'.adding.length = s.adding.length) (hissued : s'.issued = s.issued)
    (hcounters : s'.counters = s.counters) (hlog : s'.log = .got op t.id :: s.log) :
    s'.Inv setup := by
  subst ht'
  refine h.of_move hbefore hafter rfl hadding hissued hcounters (fun id hne => ?_) (fun c => ?_) ?_ ?_
  · rw [hlog, gotBy_got, finishedBy_got, if_neg hne.symm, List.append_nil]
    exact ⟨rfl, rfl⟩
  · rw [hlog, callbacks_got]
  · rw [hlog]
    exact always_cons.mpr ⟨fun _ _ he => (by cases he), h.last⟩
  · intro call issue ht
    have hhead : t.queueList.take 1 = [op] := by
      obtain ⟨rest, hrest⟩ := List.head?_eq_some_iff.mp (ht.queue op rfl)
      rw [show t.queueList = op :: rest from hrest]
      rfl
    have hgot : gotBy s.log t.id = finishedBy s.log t.id := by
      have := ht.got
      rwa [if_neg (by simp), List.append_nil] at this
    rw [hlog]
    refine { ht with
      stages := ?_
      got := ?_
      adding := fun c hc => by cases hc
      queue := fun c hc => by cases hc }
    · rw [finishedBy_got]
      exact ht.stages
    · rw [gotBy_got, finishedBy_got]
      change gotBy s.log t.id ++ (if t.id = t.id then [op] else []) =
        finishedBy s.log t.id ++ if Place.taken = .taken then t.queueList.take 1 else []
      rw [if_pos rfl, if_pos rfl, hhead, hgot]

/-- A task that is not done yet goes on to the queue of its next stage. -/
theorem of_passed (h : s.Inv setup) {op next : QueueType} {rest : List QueueType} {t : Task}
    {R : List (Place × Task)} (hstages : t.queueList = op :: next :: rest)
    (hbefore : s.places.Perm ((.taken, t) :: R))
    (hafter : s'.places.Perm ((.queue next, { t with queueList := next :: rest }) :: R))
    (hadding : s'.adding.length = s.adding.length) (hissued : s'.issued = s.issued)
    (hcounters : s'.counters = s.counters) (hlog : s'.log = .finished op t.id :: s.log) :
    s'.Inv setup := by
  refine h.of_move hbefore hafter rfl hadding hissued hcounters (fun id hne => ?_) (fun c => ?_) ?_ ?_
  · rw [hlog, gotBy_finished, finishedBy_finished, if_neg hne.symm, List.append_nil]
    exact ⟨rfl, rfl⟩
  · rw [hlog, callbacks_finished]
  · rw [hlog]
    exact always_cons.mpr ⟨fun _ _ he => (by cases he), h.last⟩
  · intro call issue ht
    have hgot : gotBy s.log t.id = finishedBy s.log t.id ++ [op] := by
      have := ht.got
      dsimp only at this
      rwa [if_pos rfl, hstages] at this
    have hall : finishedBy s.log t.id ++ op :: next :: rest = issue.stages := by
      rw [← hstages]
      exact ht.stages
    rw [hlog]
    refine { ht with
      stages := ?_
      left := List.cons_ne_nil next rest
      got := ?_
      adding := fun c hc => by cases hc
      queue := ?_ }
    · rw [finishedBy_finished]
      change finishedBy s.log t.id ++ (if t.id = t.id then [op] else []) ++ next :: rest = issue.stages
      rw [if_pos rfl, List.append_assoc]
      exact hall
    · rw [gotBy_finished, finishedBy_finished]
      change gotBy s.log t.id = finishedBy s.log t.id ++ (if t.id = t.id then [op] else []) ++
        if Place.queue next = .taken then (next :: rest).take 1 else []
      rw [if_pos rfl, if_neg (by simp), List.append_nil]
      exact hgot
    · intro op' hop
      cases hop
      rfl

/-- The number of a task's call is that of a call. -/
theorem lt_of_mem (h : s.Inv setup) {call i : ℕ} (hid : (some call, i) ∈ s.ids) :
    call < s.issued.length := by
  obtain ⟨x, hx, heq⟩ := List.mem_map.mp hid
  obtain ⟨call', issue, hstands⟩ := h.stands x hx
  rw [hstands.id_eq] at heq
  cases heq
  exact (List.getElem?_eq_some_iff.mp hstands.issued).1

/-- A later call has not called back before. -/
theorem last_extend (h : s.Inv setup) (issue : Issue) :
    Always (LastFinishes (s.issued ++ [issue])) s.log := by
  intro e past hsuffix call issue' he hissue
  have hlt : call < s.issued.length := by
    by_contra hge
    have hnone := (h.fresh call (by omega)).2.1
    have hmem : Event.callback call ∈ s.log := he ▸ hsuffix.subset List.mem_cons_self
    exact List.count_eq_zero.mp hnone hmem
  rw [List.getElem?_append_left hlt] at hissue
  exact h.last e past hsuffix call issue' he hissue

/-- A call of `EnqueueTensor` is a new one, or one before. -/
theorem getElem?_issued {issued : List Issue} {issue issue' : Issue} {call : ℕ}
    (h : (issued ++ [issue])[call]? = some issue') :
    call = issued.length ∧ issue' = issue ∨ call < issued.length ∧ issued[call]? = some issue' := by
  rcases Nat.lt_trichotomy call issued.length with hlt | heq | hgt
  · rw [List.getElem?_append_left hlt] at h
    exact .inr ⟨hlt, h⟩
  · subst heq
    rw [List.getElem?_concat_length] at h
    exact .inl ⟨rfl, (Option.some.inj h).symm⟩
  · rw [List.getElem?_eq_none (by rw [List.length_append, List.length_singleton]; omega)] at h
    cases h

/-- A new tensor without stages. -/
theorem of_skipped (h : s.Inv setup) {issue : Issue} (hstages : issue.stages = [])
    (hplaces : s'.places = s.places) (hadding : s'.adding.length = s.adding.length + 1)
    (hissued : s'.issued = s.issued ++ [issue]) (hcounters : s'.counters = s.counters)
    (hlog : s'.log = .callback s.issued.length :: s.log) : s'.Inv setup := by
  have hids : s'.ids = s.ids := congrArg (List.map _) hplaces
  constructor
  · rw [hadding, hissued, List.length_append, List.length_singleton, h.lengths]
  · rw [hids]
    exact h.nodup
  · rw [hplaces, hissued, hlog]
    intro x hx
    obtain ⟨call, issue', hx⟩ := h.stands x hx
    exact ⟨call, issue', hx.extend.of_log gotBy_callback finishedBy_callback⟩
  · intro call issue' i hissue hi hgone
    rw [hissued] at hissue
    rw [hids] at hgone
    rw [hlog, gotBy_callback, finishedBy_callback]
    rcases getElem?_issued hissue with ⟨rfl, rfl⟩ | ⟨_, hissue⟩
    · obtain ⟨hfinished, hgot⟩ := (h.fresh _ (Nat.le_refl _)).2.2 i
      rw [hstages]
      exact ⟨hfinished, hgot⟩
    · exact h.gone call issue' i hissue hi hgone
  · intro call issue' hissue hne
    rw [hissued] at hissue
    rw [hids, hcounters]
    rcases getElem?_issued hissue with ⟨rfl, rfl⟩ | ⟨_, hissue⟩
    · exact absurd hstages hne
    · exact h.counter call issue' hissue hne
  · intro call issue' hissue hne
    rw [hissued] at hissue
    rw [hids, hlog, callbacks_callback]
    rcases getElem?_issued hissue with ⟨rfl, rfl⟩ | ⟨hlt, hissue⟩
    · exact absurd hstages hne
    · rw [if_neg (Nat.ne_of_gt hlt), Nat.add_zero]
      exact h.called call issue' hissue hne
  · intro call hcall
    rw [hissued, List.length_append, List.length_singleton] at hcall
    obtain ⟨hcounter, hcalls, hlogs⟩ := h.fresh call (by omega)
    rw [hcounters, hlog, callbacks_callback, if_neg (by omega), Nat.add_zero]
    refine ⟨hcounter, hcalls, fun i => ?_⟩
    rw [finishedBy_callback, gotBy_callback]
    exact hlogs i
  · rw [hissued, hlog]
    refine always_cons.mpr ⟨fun call issue' he hissue hne => ?_, h.last_extend issue⟩
    cases he
    rw [List.getElem?_concat_length] at hissue
    cases hissue
    exact absurd hstages hne

/-- A task of a new tensor has done nothing yet. -/
theorem stands_new (h : s.Inv setup) {issue : Issue} {tasks : List Task}
    (hparts : issue.parts = tasks.length) (hstages : issue.stages ≠ [])
    (htasks : NewTasks setup issue.context s.issued.length issue.stages tasks) {t : Task}
    (ht : t ∈ tasks) :
    Stands setup (s.issued ++ [issue]) s.log (.adding s.adding.length, t) s.issued.length issue := by
  obtain ⟨i, hi⟩ := List.getElem?_of_mem ht
  obtain ⟨hid, htotal, hcontext, hqueue, hkey⟩ := htasks.task i t hi
  obtain ⟨hcounter, rfl⟩ := Prod.mk.inj hid
  obtain ⟨hfinished, hgot⟩ := (h.fresh _ (Nat.le_refl _)).2.2 t.part
  rw [← hid] at hfinished hgot
  exact
    { issued := List.getElem?_concat_length
      counter := hcounter
      part := hparts ▸ (List.getElem?_eq_some_iff.mp hi).1
      total := by rw [hparts]; exact htotal
      context := hcontext
      key := hkey
      stages := by rw [hfinished, hqueue]; rfl
      left := by rw [hqueue]; exact hstages
      got := by rw [hgot, hfinished]; rfl
      adding := fun c hc => ⟨by cases hc; exact h.lengths, hfinished⟩
      queue := fun op hop => by cases hop }

/-- The tasks of a new tensor. -/
theorem of_enqueued (h : s.Inv setup) {issue : Issue} {tasks : List Task}
    (hparts : issue.parts = tasks.length) (hstages : issue.stages ≠ [])
    (htasks : NewTasks setup issue.context s.issued.length issue.stages tasks)
    (hplaces : s'.places.Perm ((tasks.map fun t => (.adding s.adding.length, t)) ++ s.places))
    (hadding : s'.adding.length = s.adding.length + 1)
    (hissued : s'.issued = s.issued ++ [issue]) (hcounters : s'.counters = s.counters)
    (hlog : s'.log = s.log) : s'.Inv setup := by
  have hids : s'.ids.Perm (tasks.map Task.id ++ s.ids) := by
    have := hplaces.map fun x => x.2.id
    rwa [List.map_append, List.map_map] at this
  have hnew : tasks.map Task.id = (List.range issue.parts).map fun i => (some s.issued.length, i) := by
    rw [hparts]
    exact htasks.map_id
  have hmem {call i : ℕ} : (some call, i) ∈ s'.ids ↔
      call = s.issued.length ∧ i < issue.parts ∨ (some call, i) ∈ s.ids := by
    rw [hids.mem_iff, List.mem_append, hnew, List.mem_map]
    refine or_congr_left ⟨?_, ?_⟩
    · rintro ⟨j, hj, heq⟩
      cases heq
      exact ⟨rfl, List.mem_range.mp hj⟩
    · rintro ⟨rfl, hi⟩
      exact ⟨i, List.mem_range.mpr hi, rfl⟩
  have hdone {call n : ℕ} (hlt : call < s.issued.length) :
      doneCount s'.ids call n = doneCount s.ids call n :=
    doneCount_congr fun i _ => by rw [hmem]; exact or_iff_right (by omega)
  have hzero : doneCount s'.ids s.issued.length issue.parts = 0 := by
    apply List.countP_eq_zero.mpr
    intro i hi
    simp only [decide_eq_true_iff, not_not]
    exact hmem.mpr (.inl ⟨rfl, List.mem_range.mp hi⟩)
  constructor
  · rw [hadding, hissued, List.length_append, List.length_singleton, h.lengths]
  · rw [hids.nodup_iff, List.nodup_append]
    refine ⟨?_, h.nodup, ?_⟩
    · rw [hnew]
      exact List.nodup_range.map fun _ _ heq => (Prod.mk.inj heq).2
    · rintro id hid id' hid' rfl
      rw [hnew] at hid
      obtain ⟨i, _, rfl⟩ := List.mem_map.mp hid
      exact Nat.lt_irrefl _ (h.lt_of_mem hid')
  · intro x hx
    rw [hissued, hlog]
    rcases List.mem_append.mp (hplaces.mem_iff.mp hx) with hx | hx
    · obtain ⟨t, ht, rfl⟩ := List.mem_map.mp hx
      exact ⟨s.issued.length, issue, h.stands_new hparts hstages htasks ht⟩
    · obtain ⟨call, issue', hx⟩ := h.stands x hx
      exact ⟨call, issue', hx.extend⟩
  · intro call issue' i hissue hi hgone
    rw [hissued] at hissue
    rw [hmem, not_or] at hgone
    rw [hlog]
    rcases getElem?_issued hissue with ⟨rfl, rfl⟩ | ⟨_, hissue⟩
    · exact absurd ⟨rfl, hi⟩ hgone.1
    · exact h.gone call issue' i hissue hi hgone.2
  · intro call issue' hissue hne
    rw [hissued] at hissue
    rw [hcounters]
    rcases getElem?_issued hissue with ⟨rfl, rfl⟩ | ⟨hlt, hissue⟩
    · rw [hzero]
      exact (h.fresh _ (Nat.le_refl _)).1
    · rw [hdone hlt]
      exact h.counter call issue' hissue hne
  · intro call issue' hissue hne hpos
    rw [hissued] at hissue
    rw [hlog]
    rcases getElem?_issued hissue with ⟨rfl, rfl⟩ | ⟨hlt, hissue⟩
    · rw [hzero, if_neg (Nat.ne_of_lt hpos)]
      exact fun _ => (h.fresh _ (Nat.le_refl _)).2.1
    · rw [hdone hlt]
      exact h.called call issue' hissue hne hpos
  · intro call hcall
    rw [hissued, List.length_append, List.length_singleton] at hcall
    rw [hcounters, hlog]
    exact h.fresh call (by omega)
  · rw [hissued, hlog]
    exact h.last_extend issue

/-- The counter says whether a task is the last one that is not done. -/
theorem last_part_iff (h : s.Inv setup) {t : Task} {pl : Place} {call : ℕ} {issue : Issue}
    (ht : Stands setup s.issued s.log (pl, t) call issue) (hid : t.id ∈ s.ids)
    (hparts : issue.parts ≤ 2 ^ 32) : s.counters call = BitVec.ofNat 32 t.totalPartnum - 1 ↔
      doneCount s.ids call issue.parts + 1 = issue.parts := by
  have hne : issue.stages ≠ [] := by
    rw [← ht.stages]
    exact List.append_ne_nil_of_right_ne_nil _ ht.left
  rw [h.counter call issue ht.issued hne, ht.total]
  exact ofNat_eq_pred_iff (doneCount_lt ht.part (ht.id_eq ▸ hid)) hparts

end Pipeline.Inv

/-! ### A task is done

The one step in which something is counted.  Whether the callback comes is decided by the
counter before it; that no part of the call is left afterwards is what has to be shown of it.
-/

/-- A task is done with its last stage, and counted. -/
structure Pipeline.Counted (s s' : Pipeline) (op : QueueType) (t : Task) (call : ℕ)
    (R : List (Place × Task)) : Prop where
  stages : t.queueList = [op]
  counter : t.counterPtr = some call
  before : s.places.Perm ((.taken, t) :: R)
  after : s'.places.Perm R
  counters : s'.counters = Function.update s.counters call (s.counters call + 1)
  log :
    s.counters call ≠ BitVec.ofNat 32 t.totalPartnum - 1 ∧ s'.log = .finished op t.id :: s.log ∨
      s.counters call = BitVec.ofNat 32 t.totalPartnum - 1 ∧
        s'.log = .callback call :: .finished op t.id :: s.log

namespace Pipeline.Counted

variable {setup : Setup} {s s' : Pipeline} {op : QueueType} {t : Task} {call : ℕ}
  {R : List (Place × Task)} {issue : Issue}

/-- What is written down of the tasks. -/
theorem logs (hc : Counted s s' op t call R) (id : TaskId) : gotBy s'.log id = gotBy s.log id ∧
    finishedBy s'.log id = finishedBy s.log id ++ if t.id = id then [op] else [] := by
  rcases hc.log with ⟨_, hlog⟩ | ⟨_, hlog⟩
  · rw [hlog, gotBy_finished, finishedBy_finished]
    exact ⟨rfl, rfl⟩
  · rw [hlog, gotBy_callback, finishedBy_callback, gotBy_finished, finishedBy_finished]
    exact ⟨rfl, rfl⟩

theorem logs_of_ne (hc : Counted s s' op t call R) {id : TaskId} (hne : id ≠ t.id) :
    gotBy s'.log id = gotBy s.log id ∧ finishedBy s'.log id = finishedBy s.log id := by
  obtain ⟨hgot, hfinished⟩ := hc.logs id
  rw [if_neg hne.symm, List.append_nil] at hfinished
  exact ⟨hgot, hfinished⟩

theorem callbacks_of_ne (hc : Counted s s' op t call R) {call' : ℕ} (hne : call' ≠ call) :
    callbacks s'.log call' = callbacks s.log call' := by
  rcases hc.log with ⟨_, hlog⟩ | ⟨_, hlog⟩
  · rw [hlog, callbacks_finished]
  · rw [hlog, callbacks_callback, callbacks_finished, if_neg (Ne.symm hne), Nat.add_zero]

theorem ids (hc : Counted s s' op t call R) : s.ids.Perm (t.id :: s'.ids) :=
  (hc.before.map _).trans ((hc.after.map _).symm.cons _)

theorem not_mem_ids (hc : Counted s s' op t call R) (h : s.Inv setup) : t.id ∉ s'.ids :=
  (List.nodup_cons.mp (hc.ids.nodup_iff.mp h.nodup)).1

section

variable (hc : Counted s s' op t call R) (h : s.Inv setup)
  (ht : Stands setup s.issued s.log (.taken, t) call issue)

include hc ht

theorem finished_before : finishedBy s.log t.id ++ [op] = issue.stages := by
  rw [← hc.stages]
  exact ht.stages

/-- The task has done all its stages. -/
theorem finished_after :
    finishedBy s'.log t.id = issue.stages ∧ gotBy s'.log t.id = issue.stages := by
  obtain ⟨hgot, hfinished⟩ := hc.logs t.id
  rw [if_pos rfl, hc.finished_before ht] at hfinished
  have htaken := ht.got
  dsimp only at htaken
  rw [if_pos rfl, hc.stages] at htaken
  exact ⟨hfinished, (hgot.trans htaken).trans (hc.finished_before ht)⟩

theorem doneCount_of_ne {call' n : ℕ} (hne : call' ≠ call) :
    doneCount s'.ids call' n = doneCount s.ids call' n := by
  refine doneCount_congr fun i _ => ?_
  rw [hc.ids.mem_iff, List.mem_cons]
  refine (or_iff_right fun heq => hne ?_).symm
  exact Option.some.inj (Prod.mk.inj (heq.trans ht.id_eq)).1

include h

/-- One more task of the call is done. -/
theorem doneCount :
    Worker.doneCount s'.ids call issue.parts = Worker.doneCount s.ids call issue.parts + 1 := by
  have hnot : (some call, t.part) ∉ s'.ids := ht.id_eq ▸ hc.not_mem_ids h
  rw [doneCount_cons ht.part hnot, ← show t.id = _ from ht.id_eq]
  congr 1
  exact doneCount_congr fun i _ => hc.ids.mem_iff.symm

/-- What is gone has done all its stages. -/
theorem gone {call' i : ℕ} {issue' : Issue} (hissue : s.issued[call']? = some issue')
    (hi : i < issue'.parts) (hgone : (some call', i) ∉ s'.ids) :
    finishedBy s'.log (some call', i) = issue'.stages ∧
      gotBy s'.log (some call', i) = issue'.stages := by
  by_cases heq : (some call', i) = t.id
  · obtain ⟨hcall, rfl⟩ := Prod.mk.inj (heq.trans ht.id_eq)
    obtain rfl := Option.some.inj hcall
    obtain rfl := Option.some.inj (hissue.symm.trans ht.issued)
    rw [heq]
    exact hc.finished_after ht
  · obtain ⟨hgot, hfinished⟩ := hc.logs_of_ne heq
    rw [hgot, hfinished]
    refine h.gone call' issue' i hissue hi ?_
    rw [hc.ids.mem_iff, List.mem_cons, not_or]
    exact ⟨heq, hgone⟩

/-- The callback comes when the last task of the call is done. -/
theorem last_part (hparts : issue.parts ≤ 2 ^ 32) :
    s.counters call = BitVec.ofNat 32 t.totalPartnum - 1 ↔
      Worker.doneCount s'.ids call issue.parts = issue.parts := by
  rw [hc.doneCount h ht]
  exact h.last_part_iff ht (hc.ids.mem_iff.mpr List.mem_cons_self) hparts

theorem called (hparts : issue.parts ≤ 2 ^ 32) (hpos : 0 < issue.parts) : callbacks s'.log call =
    if Worker.doneCount s'.ids call issue.parts = issue.parts then 1 else 0 := by
  have hne : issue.stages ≠ [] := by
    rw [← ht.stages]
    exact List.append_ne_nil_of_right_ne_nil _ ht.left
  have hlt := doneCount_lt ht.part (ht.id_eq ▸ hc.ids.mem_iff.mpr List.mem_cons_self)
  have hbefore := h.called call issue ht.issued hne hpos hparts
  rw [if_neg (Nat.ne_of_lt hlt)] at hbefore
  have hlast := hc.last_part h ht hparts
  rcases hc.log with ⟨hv, hlog⟩ | ⟨hv, hlog⟩
  · rw [hlog, callbacks_finished, hbefore, if_neg ((not_congr hlast).mp hv)]
  · rw [hlog, callbacks_callback, callbacks_finished, hbefore, if_pos rfl, if_pos (hlast.mp hv)]

/-- A callback is right behind the last stage of the last task. -/
theorem lastFinishes : Always (LastFinishes s.issued) s'.log := by
  have hfinished : Always (LastFinishes s.issued) (.finished op t.id :: s.log) :=
    always_cons.mpr ⟨fun _ _ he => (by cases he), h.last⟩
  rcases hc.log with ⟨_, hlog⟩ | ⟨hv, hlog⟩
  · rw [hlog]
    exact hfinished
  · rw [hlog]
    refine always_cons.mpr ⟨fun call' issue' he hissue _ _ hparts => ?_, hfinished⟩
    cases he
    obtain rfl := Option.some.inj (hissue.symm.trans ht.issued)
    have hall := (hc.last_part h ht hparts).mp hv
    refine ⟨op, t.part, s.log, ht.part, by rw [← ht.id_eq], fun j hj => ?_, ?_⟩
    · have hdone := (hc.gone h ht hissue hj (doneCount_eq_iff.mp hall j hj)).1
      rwa [hlog, finishedBy_callback] at hdone
    · rw [← show t.id = _ from ht.id_eq, ← hc.finished_before ht]
      exact fun heq => by simpa using congrArg List.length heq

end

end Pipeline.Counted

namespace Pipeline.Inv

variable {setup : Setup} {s s' : Pipeline}

theorem of_counted (h : s.Inv setup) {op : QueueType} {t : Task} {call : ℕ}
    {R : List (Place × Task)} (hc : Counted s s' op t call R)
    (hadding : s'.adding.length = s.adding.length) (hissued : s'.issued = s.issued) :
    s'.Inv setup := by
  obtain ⟨⟨call', issue, ht⟩, hR, _, _⟩ := h.pick hc.before
  obtain rfl : call' = call := Option.some.inj (ht.counter.symm.trans hc.counter)
  constructor
  · rw [hadding, hissued]
    exact h.lengths
  · exact (List.nodup_cons.mp (hc.ids.nodup_iff.mp h.nodup)).2
  · intro x hx
    rw [hissued]
    obtain ⟨hne, c, issue', hx⟩ := hR x (hc.after.mem_iff.mp hx)
    exact ⟨c, issue', hx.of_log (hc.logs_of_ne hne).1 (hc.logs_of_ne hne).2⟩
  · rw [hissued]
    intro c issue' i hissue hi hgone
    exact hc.gone h ht hissue hi hgone
  · intro c issue' hissue hne'
    rw [hissued] at hissue
    rw [hc.counters]
    by_cases heq : c = call'
    · subst heq
      obtain rfl := Option.some.inj (hissue.symm.trans ht.issued)
      rw [Function.update_self, hc.doneCount h ht, h.counter c issue' hissue hne', BitVec.ofNat_add]
      rfl
    · rw [Function.update_of_ne heq, hc.doneCount_of_ne ht heq]
      exact h.counter c issue' hissue hne'
  · intro c issue' hissue hne' hpos hparts
    rw [hissued] at hissue
    by_cases heq : c = call'
    · subst heq
      obtain rfl := Option.some.inj (hissue.symm.trans ht.issued)
      exact hc.called h ht hparts hpos
    · rw [hc.doneCount_of_ne ht heq, hc.callbacks_of_ne heq]
      exact h.called c issue' hissue hne' hpos hparts
  · intro c hcall
    rw [hissued] at hcall
    have hlt := (List.getElem?_eq_some_iff.mp ht.issued).1
    have hne : c ≠ call' := by omega
    obtain ⟨hcounter, hcalls, hnone⟩ := h.fresh c hcall
    rw [hc.counters, Function.update_of_ne hne, hc.callbacks_of_ne hne]
    refine ⟨hcounter, hcalls, fun i => ?_⟩
    have hid : (some c, i) ≠ t.id := fun heq =>
      hne (Option.some.inj (Prod.mk.inj (heq.trans ht.id_eq)).1)
    rw [(hc.logs_of_ne hid).1, (hc.logs_of_ne hid).2]
    exact hnone i
  · rw [hissued]
    exact hc.lastFinishes h ht

/-- Every step keeps it. -/
theorem step (h : s.Inv setup) {a : Act} (hstep : s.step setup a = .ok s') : s'.Inv setup := by
  cases step_effect hstep with
  | quiet _ hplaces hadding hissued hcounters hlog =>
      exact h.of_same hplaces hadding hissued hcounters hlog
  | enqueued _ _ issue tasks _ hparts hstages htasks hplaces hadding hissued hcounters hlog =>
      exact h.of_enqueued hparts hstages htasks hplaces hadding hissued hcounters hlog
  | skipped _ _ issue hstages hplaces hadding hissued hcounters hlog =>
      exact h.of_skipped hstages hplaces hadding hissued hcounters hlog
  | added _ _ _ _ hstage hbefore hafter hadding hissued hcounters hlog =>
      exact h.of_added hstage hbefore hafter hadding hissued hcounters hlog
  | got _ _ _ _ _ _ _ ht' hbefore hafter hadding hissued hcounters hlog =>
      exact h.of_got ht' hbefore hafter hadding hissued hcounters hlog
  | passed _ _ _ _ _ _ _ hstages hbefore hafter hadding hissued hcounters hlog =>
      exact h.of_passed hstages hbefore hafter hadding hissued hcounters hlog
  | counted _ _ _ _ _ _ hlist hcall hbefore hafter hadding hissued hcounters _ _ hcallback =>
      refine h.of_counted ⟨hlist, hcall, hbefore, hafter, hcounters, ?_⟩ hadding hissued
      rcases hcallback with ⟨hv, hlog, _⟩ | ⟨hv, hlog, _⟩
      · exact .inl ⟨hv, hlog⟩
      · exact .inr ⟨hv, hlog⟩
  | completed _ _ _ _ hplaces hadding hissued hcounters hlog =>
      exact h.of_same hplaces hadding hissued hcounters hlog

end Pipeline.Inv

theorem Pipeline.Reachable.inv {setup : Setup} {s : Pipeline} (h : Pipeline.Reachable setup s) :
    s.Inv setup := by
  refine h.invariant (fun s hs => ?_) fun s a s' _ hinv hstep => hinv.step hstep
  obtain ⟨p, _, rfl⟩ := hs
  exact inv_start setup p

end DeepInc.Worker
