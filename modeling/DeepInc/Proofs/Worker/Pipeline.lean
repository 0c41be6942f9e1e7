/-
What a step of a process moves.

A process has a queue for every stage, loops that take tasks from them, calls of `EnqueueTensor`
that add tasks, and `FinishOrProceed`, which passes a task on or counts it.  A task is in one of
three kinds of places: with the `EnqueueTensor` that is to add it, in the queue of a stage, or
with a loop.

A step moves one task at most, or brings in those of a new tensor.  `Effect` says which, and
everything else a step changes: the record, the counters, the calls that have begun.  It has a
constructor for each kind of step, and is complete, so that no later proof looks at the calls
again; an invariant is shown by one lemma for each constructor.

Places are told as one list of tasks with their places, up to its order.  A move takes one entry
out of that list and puts one in.
-/
import DeepInc.Lib.System
import DeepInc.Proofs.Worker.ScheduledQueue
import DeepInc.Worker.Pipeline

namespace DeepInc.Worker

open Outcome

/-! ### Places -/

/-- Where a task is. -/
inductive Place
  | adding (call : ℕ)
  | queue (op : QueueType)
  | taken
  deriving DecidableEq, Repr

/-- The stages, each once. -/
def QueueType.all : List QueueType :=
  [.coordinateReduce, .reduce, .copyD2H, .pcieReduce, .coordinatePush, .compress, .push, .pull,
    .decompress, .copyH2D, .coordinateBroadcast, .broadcast]

theorem QueueType.mem_all (op : QueueType) : op ∈ QueueType.all := by
  cases op <;> decide

theorem QueueType.nodup_all : QueueType.all.Nodup := by decide

def addingPlaces (adding : List (List Task)) : List (Place × Task) :=
  (List.range adding.length).flatMap fun c => (adding.getD c []).map fun t => (.adding c, t)

def queuePlaces (queues : QueueType → ScheduledQueue) : List (Place × Task) :=
  QueueType.all.flatMap fun op => (queues op).sq.map fun t => (.queue op, t)

/-- Every task, and where it is. -/
def Pipeline.places (s : Pipeline) : List (Place × Task) :=
  addingPlaces s.adding ++ queuePlaces s.queues ++ s.taken.map fun t => (.taken, t)

/-- The tasks that are still to go through stages. -/
def Pipeline.ids (s : Pipeline) : List TaskId := s.places.map fun x => x.2.id

/-- The states runs arrive at. -/
def Pipeline.Reachable (setup : Setup) : Pipeline → Prop :=
  Transition.Reachable (Pipeline.Started setup) fun s a s' => s.step setup a = .ok s'

/-! ### Moving one task

The list of places is made of lists for the calls, the queues and the loops.  If one of these
has one task more or less, so has the whole.
-/

/-- One list of many gets one element more. -/
theorem flatMap_perm_cons {α β : Type} [DecidableEq α] {l : List α} (hl : l.Nodup) {a : α}
    (ha : a ∈ l) {f g : α → List β} {b : β} (hab : (f a).Perm (b :: g a))
    (hother : ∀ c ≠ a, f c = g c) : (l.flatMap f).Perm (b :: l.flatMap g) := by
  induction l with
  | nil => cases ha
  | cons c l ih =>
      obtain ⟨hc, hl⟩ := List.nodup_cons.mp hl
      rw [List.flatMap_cons, List.flatMap_cons]
      by_cases hca : c = a
      · subst hca
        have hrest : l.flatMap f = l.flatMap g := by
          apply List.flatMap_congr
          intro d hd
          exact hother d fun h => hc (h ▸ hd)
        rw [hrest]
        exact hab.append_right _
      · have ha := (List.mem_cons.mp ha).resolve_left fun h => hca h.symm
        rw [hother c hca]
        exact ((ih hl ha).append_left (g c)).trans List.perm_middle

section Queues

variable {queues : QueueType → ScheduledQueue} {op : QueueType} {q : ScheduledQueue} {t : Task}

theorem queuePlaces_out (h : (queues op).sq.Perm (t :: q.sq)) :
    (queuePlaces queues).Perm ((.queue op, t) :: queuePlaces (Function.update queues op q)) := by
  refine flatMap_perm_cons QueueType.nodup_all op.mem_all ?_ fun c hc => ?_
  · rw [Function.update_self]
    exact h.map _
  · rw [Function.update_of_ne hc]

theorem queuePlaces_in (h : q.sq.Perm (t :: (queues op).sq)) :
    (queuePlaces (Function.update queues op q)).Perm ((.queue op, t) :: queuePlaces queues) := by
  refine flatMap_perm_cons QueueType.nodup_all op.mem_all ?_ fun c hc => ?_
  · rw [Function.update_self]
    exact h.map _
  · rw [Function.update_of_ne hc]

/-- Credits are not tasks. -/
theorem queuePlaces_report (queues : QueueType → ScheduledQueue) (op : QueueType) (size : ℕ) :
    queuePlaces (Function.update queues op ((queues op).reportFinish size)) =
      queuePlaces queues := by
  apply List.flatMap_congr
  intro c _
  by_cases hc : c = op
  · subst hc
    rw [Function.update_self, ScheduledQueue.reportFinish_sq]
  · rw [Function.update_of_ne hc]

end Queues

/-- A call that adds its next task. -/
theorem addingPlaces_out {adding : List (List Task)} {call : ℕ} {t : Task} {rest : List Task}
    (h : adding.getD call [] = t :: rest) :
    (addingPlaces adding).Perm ((.adding call, t) :: addingPlaces (adding.set call rest)) := by
  have hlt : call < adding.length := by
    by_contra hge
    rw [List.getD_eq_default _ _ (Nat.le_of_not_lt hge)] at h
    cases h
  unfold addingPlaces
  rw [List.length_set]
  refine flatMap_perm_cons List.nodup_range (List.mem_range.mpr hlt) ?_ fun c hc => ?_
  · rw [h]
    simp only [List.getD_eq_getElem?_getD, List.getElem?_set_self hlt, Option.getD_some]
    exact .refl _
  · simp only [List.getD_eq_getElem?_getD, List.getElem?_set_ne (Ne.symm hc)]

/-- A new call. -/
theorem addingPlaces_append (adding : List (List Task)) (tasks : List Task) :
    addingPlaces (adding ++ [tasks]) =
      addingPlaces adding ++ tasks.map fun t => (.adding adding.length, t) := by
  unfold addingPlaces
  rw [List.length_append, List.length_singleton, List.range_succ, List.flatMap_append,
    List.flatMap_singleton]
  congr 1
  · apply List.flatMap_congr
    intro c hc
    rw [List.getD_append _ _ _ _ (List.mem_range.mp hc)]
  · rw [List.getD_append_right _ _ _ _ (Nat.le_refl _), Nat.sub_self]
    rfl

/-! ### The tasks of a tensor

`EnqueueTensor` makes a task for every partition.  They have distinct places in the tensor, the
stages that were asked for and a common counter.
-/

/-- The tasks a call of `EnqueueTensor` makes. -/
structure NewTasks (setup : Setup) (n call : ℕ) (stages : List QueueType) (tasks : List Task) :
    Prop where
  length : tasks.length = (setup.context n).keyList.length
  task : ∀ i t, tasks[i]? = some t → t.id = (some call, i) ∧
    t.totalPartnum = uint32 tasks.length ∧ t.context = n ∧ t.queueList = stages ∧
    t.key = (setup.context n).keyList.getD i 0
  len : ∀ t ∈ tasks, t.len ≤ setup.partitionBytes

/-- They are known by their places in the tensor. -/
theorem NewTasks.map_id {setup : Setup} {n call : ℕ} {stages : List QueueType} {tasks : List Task}
    (h : NewTasks setup n call stages tasks) :
    tasks.map Task.id = (List.range tasks.length).map fun i => (some call, i) := by
  apply List.ext_getElem?
  intro i
  rw [List.getElem?_map, List.getElem?_map]
  cases hi : tasks[i]? with
  | none =>
      rw [List.getElem?_eq_none (by rw [List.length_range]; exact List.getElem?_eq_none_iff.mp hi)]
      rfl
  | some t =>
      rw [List.getElem?_range (List.getElem?_eq_some_iff.mp hi).1]
      exact congrArg some (h.task i t hi).1

/-- No cut is longer than the bound. -/
theorem len_le_of_cutLoop {size bound fuel accumulated : ℕ} {ranges : List Tiling.Range}
    (h : cutLoop uint32 size bound fuel accumulated = .ok ranges) : ∀ r ∈ ranges, r.len ≤ bound := by
  induction fuel generalizing accumulated ranges with
  | zero => cases h
  | succ fuel ih =>
      unfold cutLoop at h
      split at h
      · obtain ⟨rest, hrest, h⟩ := bind_eq_ok h
        cases h
        intro r hr
        rcases List.mem_cons.mp hr with heq | hr
        · rw [heq]
          refine (Nat.mod_le _ _).trans ?_
          split
          · exact Nat.le_refl bound
          · omega
        · exact ih hrest r hr
      · cases h
        simp

theorem partitionTensor_fields {bound compressors : ℕ} {entry e : TensorTableEntry}
    {partitions : List TensorTableEntry}
    (h : partitionTensor bound compressors entry = .ok partitions) (he : e ∈ partitions) :
    e.counterPtr = entry.counterPtr ∧ e.totalPartnum = entry.totalPartnum ∧
      e.queueList = entry.queueList ∧ e.len ≤ bound := by
  unfold partitionTensor at h
  obtain ⟨_, _, h⟩ := bind_eq_ok h
  cases htensor : entry.tensor <|> entry.output with
  | none =>
      rw [htensor] at h
      cases h
  | some tensor =>
      rw [htensor] at h
      obtain ⟨ranges, hranges, h⟩ := bind_eq_ok h
      cases h
      obtain ⟨i, hi, rfl⟩ := List.mem_mapIdx.mp he
      exact ⟨rfl, rfl, rfl, len_le_of_cutLoop hranges _ (List.getElem_mem hi)⟩

theorem tasksOf_spec {setup : Setup} {args : EnqueueArgs} {call : ℕ} {stages : List QueueType}
    {tasks : List Task} (h : tasksOf setup args call stages = .ok tasks) :
    NewTasks setup args.context call stages tasks := by
  unfold tasksOf at h
  obtain ⟨partitions, hpartitions, h⟩ := bind_eq_ok h
  obtain ⟨_, hlength, h⟩ := bind_eq_ok h
  have hlength := of_decide_eq_true (check_eq_ok hlength)
  cases h
  refine ⟨by rw [List.length_mapIdx, hlength], fun i t ht => ?_, fun t ht => ?_⟩
  · rw [List.getElem?_mapIdx] at ht
    obtain ⟨e, he, rfl⟩ := Option.map_eq_some_iff.mp ht
    obtain ⟨hcounter, htotal, hqueue, _⟩ :=
      partitionTensor_fields hpartitions (List.mem_of_getElem? he)
    refine ⟨?_, ?_, rfl, hqueue, rfl⟩
    · unfold Task.id
      dsimp only
      rw [hcounter]
      rfl
    · rw [List.length_mapIdx, ← hlength]
      exact htotal
  · obtain ⟨i, hi, rfl⟩ := List.mem_mapIdx.mp ht
    exact (partitionTensor_fields hpartitions (List.getElem_mem hi)).2.2.2

/-! ### Effects -/

/-- What a step changes. -/
inductive Effect (setup : Setup) (s s' : Pipeline) : Act → Prop
  /-- tables and credits at most -/
  | quiet (a : Act) (hplaces : s'.places = s.places)
    (hadding : s'.adding.length = s.adding.length) (hissued : s'.issued = s.issued)
    (hcounters : s'.counters = s.counters) (hlog : s'.log = s.log)
    (hprofile : s'.profile = s.profile) (hcompleting : s'.completing = s.completing) :
    Effect setup s s' a
  /-- the tasks of a tensor come in -/
  | enqueued (args : EnqueueArgs) (now : ℤ) (issue : Issue) (tasks : List Task)
    (hcontext : issue.context = args.context) (hparts : issue.parts = tasks.length)
    (hstages : issue.stages ≠ [])
    (htasks : NewTasks setup issue.context s.issued.length issue.stages tasks)
    (hplaces : s'.places.Perm ((tasks.map fun t => (.adding s.adding.length, t)) ++ s.places))
    (hadding : s'.adding.length = s.adding.length + 1)
    (hissued : s'.issued = s.issued ++ [issue]) (hcounters : s'.counters = s.counters)
    (hlog : s'.log = s.log)
    (hprofile : s'.profile = Function.update s.profile issue.context
      ((s.profile issue.context).recordRound s.issued.length now))
    (hcompleting : s'.completing = s.completing) : Effect setup s s' (.enqueueTensor args now)
  /-- a tensor without stages is done -/
  | skipped (args : EnqueueArgs) (now : ℤ) (issue : Issue) (hstages : issue.stages = [])
    (hplaces : s'.places = s.places) (hadding : s'.adding.length = s.adding.length + 1)
    (hissued : s'.issued = s.issued ++ [issue]) (hcounters : s'.counters = s.counters)
    (hlog : s'.log = .callback s.issued.length :: s.log) (hprofile : s'.profile = s.profile)
    (hcompleting : s'.completing = s.completing) : Effect setup s s' (.enqueueTensor args now)
  /-- a task goes to the queue of its first stage -/
  | added (call : ℕ) (op : QueueType) (t : Task) (R : List (Place × Task))
    (hstage : ((s.issued.map (·.stages)).getD call []).head? = some op)
    (hbefore : s.places.Perm ((.adding call, t) :: R)) (hafter : s'.places.Perm ((.queue op, t) :: R))
    (hadding : s'.adding.length = s.adding.length) (hissued : s'.issued = s.issued)
    (hcounters : s'.counters = s.counters) (hlog : s'.log = s.log) (hprofile : s'.profile = s.profile)
    (hcompleting : s'.completing = s.completing) : Effect setup s s' (.addNext call)
  /-- a loop takes a task -/
  | got (a : Act) (op : QueueType) (t t' : Task) (now : ℤ) (p : Profile) (R : List (Place × Task))
    (ht' : t' = { t with readyEvent := none })
    (hbefore : s.places.Perm ((.queue op, t) :: R)) (hafter : s'.places.Perm ((.taken, t') :: R))
    (hadding : s'.adding.length = s.adding.length) (hissued : s'.issued = s.issued)
    (hcounters : s'.counters = s.counters) (hlog : s'.log = .got op t.id :: s.log)
    (hp : (s.profile t.context).recorderTs t now = .ok p)
    (hprofile : s'.profile = Function.update s.profile t.context p)
    (hcompleting : s'.completing = s.completing) : Effect setup s s' a
  /-- a task goes on to the queue of its next stage -/
  | passed (op next : QueueType) (rest : List QueueType) (t : Task) (now : ℤ) (p : Profile)
    (R : List (Place × Task)) (hstages : t.queueList = op :: next :: rest)
    (hbefore : s.places.Perm ((.taken, t) :: R))
    (hafter : s'.places.Perm ((.queue next, { t with queueList := next :: rest }) :: R))
    (hadding : s'.adding.length = s.adding.length) (hissued : s'.issued = s.issued)
    (hcounters : s'.counters = s.counters) (hlog : s'.log = .finished op t.id :: s.log)
    (hp : (s.profile t.context).finishStage t.key op now = .ok p)
    (hprofile : s'.profile = Function.update s.profile t.context p)
    (hcompleting : s'.completing = s.completing) : Effect setup s s' (.finishOrProceed t now)
  /-- a task is done, and counted -/
  | counted (op : QueueType) (t : Task) (call : ℕ) (now : ℤ) (p : Profile) (R : List (Place × Task))
    (hstages : t.queueList = [op]) (hcall : t.counterPtr = some call)
    (hbefore : s.places.Perm ((.taken, t) :: R)) (hafter : s'.places.Perm R)
    (hadding : s'.adding.length = s.adding.length) (hissued : s'.issued = s.issued)
    (hcounters : s'.counters = Function.update s.counters call (s.counters call + 1))
    (hp : (s.profile t.context).finishStage t.key op now = .ok p)
    (hprofile : s'.profile = Function.update s.profile t.context p)
    (hcallback :
      s.counters call ≠ BitVec.ofNat 32 t.totalPartnum - 1 ∧
          s'.log = .finished op t.id :: s.log ∧ s'.completing = s.completing ∨
        s.counters call = BitVec.ofNat 32 t.totalPartnum - 1 ∧
          s'.log = .callback call :: .finished op t.id :: s.log ∧
          s'.completing = s.completing ++
            [{ call := call, context := t.context, phase := .commTime }]) :
    Effect setup s s' (.finishOrProceed t now)
  /-- a `FinishOrProceed` goes on after its callback -/
  | completed (i : ℕ) (now : ℤ) (c : Completing) (hc : s.completing[i]? = some c)
    (hplaces : s'.places = s.places) (hadding : s'.adding.length = s.adding.length)
    (hissued : s'.issued = s.issued) (hcounters : s'.counters = s.counters) (hlog : s'.log = s.log)
    (hphase :
      (c.phase = .commTime ∧ ∃ p, (s.profile c.context).finishRound now = .ok p ∧
          s'.profile = Function.update s.profile c.context p ∧
          s'.completing = s.completing.set i { c with phase := .stepCnt }) ∨
        (c.phase = .stepCnt ∧
          s'.profile = Function.update s.profile c.context
            { s.profile c.context with stepCnt := (s.profile c.context).stepCnt + 1 } ∧
          s'.completing = s.completing.set i { c with phase := .profileFlag }) ∨
        (c.phase = .profileFlag ∧ ∃ p, (s.profile c.context).setProfileFlag setup = .ok p ∧
          s'.profile = Function.update s.profile c.context p ∧
          s'.completing = s.completing.eraseIdx i)) : Effect setup s s' (.complete i now)

/-! ### Every step has its effect -/

section Steps

variable {setup : Setup} {s s' : Pipeline} {now : ℤ}

theorem orStop_eq_ok {α : Type} {r : Except Fault α} {x : α} (h : orStop r = .ok x) : r = .ok x := by
  cases r with
  | error e => cases h
  | ok y =>
      cases h
      rfl

theorem enqueueTensor_effect {args : EnqueueArgs} (h : enqueueTensor setup s args now = .ok s') :
    Effect setup s s' (.enqueueTensor args now) := by
  unfold enqueueTensor at h
  obtain ⟨_, _, h⟩ := bind_eq_ok h
  obtain ⟨stages, _, h⟩ := bind_eq_ok h
  obtain ⟨tasks, htasks, h⟩ := bind_eq_ok h
  have htasks := tasksOf_spec (orStop_eq_ok htasks)
  cases stages with
  | nil =>
      cases h
      refine .skipped args now ⟨args.context, [], tasks.length⟩ rfl ?_ List.length_append rfl rfl
        rfl rfl rfl
      unfold Pipeline.places
      rw [addingPlaces_append, List.map_nil, List.append_nil]
  | cons op rest =>
      cases h
      refine .enqueued args now ⟨args.context, op :: rest, tasks.length⟩ tasks rfl rfl
        (List.cons_ne_nil op rest) htasks ?_ List.length_append rfl rfl rfl rfl rfl
      unfold Pipeline.places
      rw [addingPlaces_append]
      simp only [List.append_assoc]
      exact (List.perm_append_comm_assoc _ _ _)

/-- What adding the next task of a call does. -/
theorem addNext_cases {call : ℕ} (h : addNext setup s call = .ok s') : ∃ t rest op q,
    s.adding.getD call [] = t :: rest ∧
      ((s.issued.map (·.stages)).getD call []).head? = some op ∧
      (s.queues op).addTask setup.sort t = .ok q ∧
      s' = { s.setQueue op q with adding := s.adding.set call rest } := by
  unfold addNext at h
  split at h
  · rename_i t rest op _ hadding hstages
    obtain ⟨q, hq, h⟩ := bind_eq_ok h
    exact ⟨t, rest, op, q, hadding, by rw [hstages]; rfl, orStop_eq_ok hq, (Except.ok.inj h).symm⟩
  · cases h

/-- A task comes from a call to the queue of its stage. -/
theorem places_addNext {call : ℕ} {t : Task} {rest : List Task} {op : QueueType} {q : ScheduledQueue}
    (hadding : s.adding.getD call [] = t :: rest)
    (hq : (s.queues op).addTask setup.sort t = .ok q) :
    ∃ R, s.places.Perm ((.adding call, t) :: R) ∧
      { s.setQueue op q with adding := s.adding.set call rest }.places.Perm
        ((.queue op, t) :: R) := by
  have hperm := (ScheduledQueue.addTask_spec hq).1
  refine ⟨addingPlaces (s.adding.set call rest) ++ queuePlaces s.queues ++
    s.taken.map fun t => (.taken, t), ?_, ?_⟩
  · exact ((addingPlaces_out hadding).append_right _).append_right _
  · refine .trans (.append_right _ (.append_left _ (queuePlaces_in hperm))) ?_
    exact List.perm_middle.append_right _

theorem addNext_effect {call : ℕ} (h : addNext setup s call = .ok s') :
    Effect setup s s' (.addNext call) := by
  obtain ⟨t, rest, op, q, hadding, hstage, hq, rfl⟩ := addNext_cases h
  obtain ⟨R, hbefore, hafter⟩ := places_addNext hadding hq
  exact .added call op t R hstage hbefore hafter List.length_set rfl rfl rfl rfl rfl

/-- What taking a task from a queue does. -/
theorem take_cases {op : QueueType} {q : ScheduledQueue} {t' : Task}
    (h : take s op q t' now = .ok s') : ∃ p, (s.profile t'.context).recorderTs t' now = .ok p ∧
      s' = (({ s with taken := t' :: s.taken }.setQueue op q).setProfile t'.context p).record
        (.got op t'.id) := by
  unfold take at h
  obtain ⟨p, hp, h⟩ := bind_eq_ok h
  exact ⟨p, hp, (Except.ok.inj h).symm⟩

/-- A task comes from a queue to a loop. -/
theorem places_take {op : QueueType} {q : ScheduledQueue} {t t' : Task} {tables : TableName → ReadyTable}
    (hperm : (s.queues op).sq.Perm (t :: q.sq))
    (h : take { s with tables := tables } op q t' now = .ok s') :
    ∃ R, s.places.Perm ((.queue op, t) :: R) ∧ s'.places.Perm ((.taken, t') :: R) := by
  obtain ⟨p, _, rfl⟩ := take_cases h
  refine ⟨addingPlaces s.adding ++ queuePlaces (Function.update s.queues op q) ++
    s.taken.map fun t => (.taken, t), ?_, List.perm_middle⟩
  refine .trans (.append_right _ (.append_left _ (queuePlaces_out hperm))) ?_
  exact List.perm_middle.append_right _

/-- A task that is taken from a queue. -/
theorem take_effect {op : QueueType} {q : ScheduledQueue} {t t' : Task} {a : Act}
    {tables : TableName → ReadyTable} (ht' : t' = { t with readyEvent := none })
    (hperm : (s.queues op).sq.Perm (t :: q.sq))
    (h : take { s with tables := tables } op q t' now = .ok s') : Effect setup s s' a := by
  obtain ⟨R, hbefore, hafter⟩ := places_take hperm h
  obtain ⟨p, hp, rfl⟩ := take_cases h
  subst ht'
  exact .got a op t _ now p R rfl hbefore hafter rfl rfl rfl rfl hp rfl rfl

theorem setTable_eq (setup : Setup) (s : Pipeline) (op : QueueType) (rt : Option ReadyTable) :
    ∃ tables, setTable setup s op rt = { s with tables := tables } := by
  unfold setTable
  split
  · exact ⟨_, rfl⟩
  · exact ⟨s.tables, rfl⟩

theorem runGetTask_effect {op : QueueType} {ready : ℕ → Bool} {a : Act}
    (h : runGetTask setup s op ready now = .ok s') : Effect setup s s' a := by
  unfold runGetTask at h
  split at h
  · cases h
    exact .quiet a rfl rfl rfl rfl rfl rfl rfl
  · rename_i t' q rt hget
    obtain ⟨t, ht', hperm, _⟩ := ScheduledQueue.getTask_spec hget
    obtain ⟨tables, htables⟩ := setTable_eq setup s op rt
    rw [htables] at h
    exact take_effect ht' hperm h

theorem runGetTaskOf_effect {op : QueueType} {key : ℕ} {ready : ℕ → Bool} {a : Act}
    (h : runGetTaskOf s op key ready now = .ok s') : Effect setup s s' a := by
  unfold runGetTaskOf at h
  obtain ⟨found, hfound, h⟩ := bind_eq_ok h
  cases found with
  | none =>
      cases h
      exact .quiet a rfl rfl rfl rfl rfl rfl rfl
  | some found =>
      obtain ⟨t, ht', hperm, _⟩ := ScheduledQueue.getTaskOf_spec (orStop_eq_ok hfound)
      have h : take { s with tables := s.tables } op found.2 found.1 now = .ok s' := h
      exact take_effect ht' hperm h

/-- What a loop has taken is among the tasks. -/
theorem places_of_taken {t : Task} (ht : t ∈ s.taken) :
    s.places.Perm ((.taken, t) :: (addingPlaces s.adding ++ queuePlaces s.queues ++
      (s.taken.erase t).map fun t => (.taken, t))) := by
  have hperm : (s.taken.map fun t => (Place.taken, t)).Perm
      ((.taken, t) :: (s.taken.erase t).map fun t => (.taken, t)) :=
    (List.perm_cons_erase ht).map _
  exact (hperm.append_left _).trans List.perm_middle

/-- A partition is counted, and the last one calls back. -/
theorem finishPart_spec {t : Task} (h : finishPart s t = .ok s') :
    ∃ call, t.counterPtr = some call ∧
      (s.counters call ≠ BitVec.ofNat 32 t.totalPartnum - 1 ∧
          s' = { s with counters := Function.update s.counters call (s.counters call + 1) } ∨
        s.counters call = BitVec.ofNat 32 t.totalPartnum - 1 ∧
          s' = { s with
            counters := Function.update s.counters call (s.counters call + 1)
            log := .callback call :: s.log
            completing := s.completing ++
              [{ call := call, context := t.context, phase := .commTime }] }) := by
  unfold finishPart at h
  cases hcall : t.counterPtr with
  | none =>
      rw [hcall] at h
      cases h
  | some call =>
      rw [hcall] at h
      dsimp only at h
      refine ⟨call, rfl, ?_⟩
      by_cases hv : s.counters call = BitVec.ofNat 32 t.totalPartnum - 1
      · rw [if_pos hv] at h
        obtain ⟨_, _, h⟩ := bind_eq_ok h
        exact .inr ⟨hv, (Except.ok.inj h).symm⟩
      · rw [if_neg hv] at h
        exact .inl ⟨hv, (Except.ok.inj h).symm⟩

/-- A task is reported to the queue of its stage, and what the stage took is written down. -/
def reportTask (s : Pipeline) (t : Task) (op : QueueType) (p : Profile) : Pipeline :=
  ({ s with taken := s.taken.erase t }.setQueue op ((s.queues op).reportFinish t.len)).setProfile
    t.context p |>.record (.finished op t.id)

/-- After the report the task goes to the queue of its next stage, or is counted. -/
theorem finishOrProceed_cases {t : Task} (h : finishOrProceed setup s t now = .ok s') :
    t ∈ s.taken ∧ ∃ op rest p, t.queueList = op :: rest ∧
      (s.profile t.context).finishStage t.key op now = .ok p ∧
      ((∃ next rest' q, rest = next :: rest' ∧
          ((reportTask s t op p).queues next).addTask setup.sort { t with queueList := rest } =
            .ok q ∧
          s' = (reportTask s t op p).setQueue next q) ∨
        rest = [] ∧ finishPart (reportTask s t op p) t = .ok s') := by
  unfold finishOrProceed at h
  by_cases ht : t ∈ s.taken
  · rw [if_pos ht] at h
    cases hlist : t.queueList with
    | nil =>
        rw [hlist] at h
        cases h
    | cons op rest =>
        rw [hlist] at h
        obtain ⟨p, hp, h⟩ := bind_eq_ok h
        refine ⟨ht, op, rest, p, rfl, hp, ?_⟩
        cases rest with
        | cons next rest =>
            obtain ⟨_, _, h⟩ := bind_eq_ok h
            obtain ⟨q, hq, h⟩ := bind_eq_ok h
            cases h
            exact .inl ⟨next, rest, q, rfl, orStop_eq_ok hq, rfl⟩
        | nil => exact .inr ⟨rfl, h⟩
  · rw [if_neg ht] at h
    cases h

/-- A report takes a task from the loops. -/
theorem places_reportTask {t : Task} (ht : t ∈ s.taken) (op : QueueType) (p : Profile) :
    s.places.Perm ((.taken, t) :: (reportTask s t op p).places) := by
  have hreport : (reportTask s t op p).places = addingPlaces s.adding ++ queuePlaces s.queues ++
      (s.taken.erase t).map fun t => (.taken, t) := by
    unfold Pipeline.places
    exact congrArg (addingPlaces s.adding ++ · ++ _) (queuePlaces_report s.queues op t.len)
  rw [hreport]
  exact places_of_taken ht

/-- A task goes to the queue of a stage. -/
theorem places_setQueue {op : QueueType} {t : Task} {q : ScheduledQueue}
    (hq : (s.queues op).addTask setup.sort t = .ok q) :
    (s.setQueue op q).places.Perm ((.queue op, t) :: s.places) := by
  have hperm := (ScheduledQueue.addTask_spec hq).1
  refine .trans (.append_right _ (.append_left _ (queuePlaces_in hperm))) ?_
  exact List.perm_middle.append_right _

theorem finishOrProceed_effect {t : Task} (h : finishOrProceed setup s t now = .ok s') :
    Effect setup s s' (.finishOrProceed t now) := by
  obtain ⟨ht, op, rest, p, hlist, hp, h⟩ := finishOrProceed_cases h
  have hbefore := places_reportTask ht op p
  rcases h with ⟨next, rest, q, rfl, hq, rfl⟩ | ⟨rfl, h⟩
  · exact .passed op next rest t now p _ hlist hbefore (places_setQueue hq) rfl rfl rfl rfl hp rfl rfl
  · obtain ⟨call, hcall, h⟩ := finishPart_spec h
    rcases h with ⟨hv, rfl⟩ | ⟨hv, rfl⟩
    · exact .counted op t call now p _ hlist hcall hbefore (.refl _) rfl rfl rfl hp rfl
        (.inl ⟨hv, rfl, rfl⟩)
    · exact .counted op t call now p _ hlist hcall hbefore (.refl _) rfl rfl rfl hp rfl
        (.inr ⟨hv, rfl, rfl⟩)

theorem complete_effect {i : ℕ} (h : complete setup s i now = .ok s') :
    Effect setup s s' (.complete i now) := by
  unfold complete at h
  cases hc : s.completing[i]? with
  | none =>
      rw [hc] at h
      cases h
  | some c =>
      rw [hc] at h
      cases hphase : c.phase with
      | commTime =>
          simp only [hphase] at h
          obtain ⟨p, hp, h⟩ := bind_eq_ok h
          cases h
          exact .completed i now c hc rfl rfl rfl rfl rfl (.inl ⟨hphase, p, hp, rfl, rfl⟩)
      | stepCnt =>
          simp only [hphase] at h
          cases h
          exact .completed i now c hc rfl rfl rfl rfl rfl (.inr (.inl ⟨hphase, rfl, rfl⟩))
      | profileFlag =>
          simp only [hphase] at h
          obtain ⟨p, hp, h⟩ := bind_eq_ok h
          cases h
          exact .completed i now c hc rfl rfl rfl rfl rfl (.inr (.inr ⟨hphase, p, hp, rfl, rfl⟩))

end Steps

/--
**A step has the effect of its action.**

The effects are told apart by what moves, and not by which loop has moved it; the loops of all
stages have the same ones.
-/
theorem step_effect {setup : Setup} {s s' : Pipeline} {a : Act} (h : s.step setup a = .ok s') :
    Effect setup s s' a := by
  cases a with
  | enqueueTensor args now => exact enqueueTensor_effect h
  | addNext call => exact addNext_effect h
  | getTask op ready now => exact runGetTask_effect h
  | getTaskOf op key ready now => exact runGetTaskOf_effect h
  | finishOrProceed t now => exact finishOrProceed_effect h
  | complete i now => exact complete_effect h
  | addReadyCount name key =>
      obtain ⟨rt, _, heq⟩ := map_eq_ok h
      subst heq
      exact .quiet _ rfl rfl rfl rfl rfl rfl rfl
  | reset op key cnt =>
      cases h
      obtain ⟨tables, htables⟩ :=
        setTable_eq setup s op ((tableOf setup s op).map (·.setReadyCount key cnt))
      rw [htables]
      exact .quiet _ rfl rfl rfl rfl rfl rfl rfl

end DeepInc.Worker
