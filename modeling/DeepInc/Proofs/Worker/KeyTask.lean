/-
The task of a key on a device.

The queues and loops of a device hold tasks of many keys.  Seen from one key there is one task
at most, and all that is to be said of it is where it is: what is left of its stages, and
whether a loop has it.  That is `position`, and a step is told by where the task was before and
where it is after.

There is one because a task of a key is added only when the device has none of it; a task that
moves goes from one place to another and is not there twice in between.  Whoever enqueues
tensors has to see to the first, by waiting for the callback; the second follows from what a
step moves.

With it go the counts of the tables, which no step of a pipeline changes but the one that takes
a task, and what the queues and the events of the tasks are not: a device that is no root has no
scheduled queue, and a task that has been taken has no event to wait for.
-/
import DeepInc.Proofs.Worker.Credits
import DeepInc.Proofs.Worker.KeyRounds

namespace DeepInc.Worker

open Transition Outcome

/-! ### Where the task of a key is -/

/-- In a queue or with a loop. -/
def Place.isActive : Place → Bool
  | .adding _ => false
  | .queue _ => true
  | .taken => true

/-- The tasks of a key that are in a queue or with a loop. -/
def active (k : ℕ) (places : List (Place × Task)) : List (Place × Task) :=
  places.filter fun x => x.1.isActive && decide (x.2.key = k)

def positionOf : List (Place × Task) → Position
  | [] => ([], false)
  | x :: _ => (x.2.queueList, decide (x.1 = .taken))

namespace Pipeline

/-- Where the task of a key is. -/
def position (s : Pipeline) (k : ℕ) : Position := positionOf (active k s.places)

/-- There is one task of a key at most. -/
def OneEach (s : Pipeline) : Prop := ∀ k, (active k s.places).length ≤ 1

end Pipeline

section Active

variable {k : ℕ} {x : Place × Task} {l l' : List (Place × Task)}

theorem active_cons_self (hx : x.1.isActive = true) (hk : x.2.key = k) :
    active k (x :: l) = x :: active k l := by
  unfold active
  rw [List.filter_cons, hx, decide_eq_true hk]
  rfl

theorem active_cons_ne (h : x.1.isActive = false ∨ x.2.key ≠ k) :
    active k (x :: l) = active k l := by
  unfold active
  rw [List.filter_cons]
  rcases h with hx | hk
  · rw [hx]
    rfl
  · rw [decide_eq_false hk, Bool.and_false]
    rfl

theorem active_append : active k (l ++ l') = active k l ++ active k l' := List.filter_append ..

/-- Tasks that are still to be added are not active. -/
theorem active_adding (c : ℕ) (tasks : List Task) :
    active k (tasks.map fun t => (.adding c, t)) = [] := by
  apply List.filter_eq_nil_iff.mpr
  intro x hx
  obtain ⟨t, _, rfl⟩ := List.mem_map.mp hx
  exact Bool.false_ne_true

/-- One task has one order. -/
theorem eq_of_perm_of_length_le_one {α : Type} {l l' : List α} (h : l.Perm l') (hl : l.length ≤ 1) :
    l = l' := by
  cases l with
  | nil => exact h.nil_eq
  | cons a l =>
      cases l with
      | nil => exact (List.perm_singleton.mp h.symm).symm
      | cons b l =>
          rw [List.length_cons, List.length_cons] at hl
          omega

theorem eq_of_mem_of_length_le_one {α : Type} {l : List α} {a b : α} (hl : l.length ≤ 1)
    (ha : a ∈ l) (hb : b ∈ l) : a = b := by
  cases l with
  | nil => cases ha
  | cons c rest =>
      rw [List.length_cons] at hl
      have hnil : rest = [] := List.length_eq_zero_iff.mp (by omega)
      rw [hnil, List.mem_singleton] at ha hb
      exact ha.trans hb.symm

theorem active_perm (h : l.Perm l') (hl : (active k l).length ≤ 1) : active k l' = active k l :=
  (eq_of_perm_of_length_le_one (h.filter _) hl).symm

theorem mem_active {x : Place × Task} {l : List (Place × Task)} (hx : x ∈ l)
    (hactive : x.1.isActive = true) : x ∈ active x.2.key l := by
  apply List.mem_filter.mpr
  rw [hactive, decide_eq_true rfl]
  exact ⟨hx, rfl⟩

end Active

namespace Pipeline

variable {s s' : Pipeline} {x y : Place × Task} {R : List (Place × Task)}

/-- What is active is where its key is, and no other task has the key. -/
theorem OneEach.at (h : s.OneEach) (hplaces : s.places.Perm (x :: R)) (hx : x.1.isActive = true) :
    s.position x.2.key = positionOf [x] ∧ active x.2.key R = [] := by
  have hactive := active_perm hplaces (h x.2.key)
  rw [active_cons_self hx rfl] at hactive
  have hone := h x.2.key
  rw [← hactive, List.length_cons] at hone
  have hnil : active x.2.key R = [] := List.length_eq_zero_iff.mp (by omega)
  unfold position
  rw [← hactive, hnil]
  exact ⟨rfl, rfl⟩

/-- Nothing that is active has changed. -/
theorem OneEach.same (h : s.OneEach)
    (hactive : ∀ k, (active k s'.places).Perm (active k s.places)) :
    s'.OneEach ∧ ∀ k, s'.position k = s.position k := by
  have heq : ∀ k, active k s'.places = active k s.places := by
    intro k
    exact (eq_of_perm_of_length_le_one (hactive k).symm (h k)).symm
  constructor
  · intro k
    rw [heq]
    exact h k
  · intro k
    unfold position
    rw [heq]

/-- An active task has moved, or one has come that was to be added. -/
theorem OneEach.moved (h : s.OneEach) (hbefore : s.places.Perm (x :: R))
    (hafter : s'.places.Perm (y :: R)) (hy : y.1.isActive = true) (hkey : y.2.key = x.2.key)
    (hnone : active x.2.key R = []) :
    s'.OneEach ∧ (∀ k, k ≠ x.2.key → s'.position k = s.position k) ∧
      s'.position x.2.key = positionOf [y] := by
  have hself : active x.2.key s'.places = [y] := by
    have hperm : (active x.2.key s'.places).Perm (active x.2.key (y :: R)) := hafter.filter _
    rw [active_cons_self hy hkey, hnone] at hperm
    exact List.perm_singleton.mp hperm
  have hother : ∀ k, k ≠ x.2.key → active k s'.places = active k s.places := by
    intro k hk
    have hbefore := active_perm hbefore (h k)
    rw [active_cons_ne (.inr (Ne.symm hk))] at hbefore
    have hperm : (active k s'.places).Perm (active k (y :: R)) := hafter.filter _
    rw [active_cons_ne (.inr (hkey ▸ Ne.symm hk)), hbefore] at hperm
    exact (eq_of_perm_of_length_le_one hperm.symm (h k)).symm
  refine ⟨?_, ?_, ?_⟩
  · intro k
    by_cases hk : k = x.2.key
    · rw [hk, hself]
      exact Nat.le_refl 1
    · rw [hother k hk]
      exact h k
  · intro k hk
    unfold position
    rw [hother k hk]
  · unfold position
    rw [hself]

/-- An active task is done. -/
theorem OneEach.gone (h : s.OneEach) (hbefore : s.places.Perm (x :: R)) (hafter : s'.places.Perm R)
    (hx : x.1.isActive = true) :
    s'.OneEach ∧ (∀ k, k ≠ x.2.key → s'.position k = s.position k) ∧
      s'.position x.2.key = ([], false) := by
  have hself : active x.2.key s'.places = [] := by
    have hperm : (active x.2.key s'.places).Perm (active x.2.key R) := hafter.filter _
    rw [(h.at hbefore hx).2] at hperm
    exact hperm.eq_nil
  have hother : ∀ k, k ≠ x.2.key → active k s'.places = active k s.places := by
    intro k hk
    have hbefore := active_perm hbefore (h k)
    rw [active_cons_ne (.inr (Ne.symm hk))] at hbefore
    have hperm : (active k s'.places).Perm (active k R) := hafter.filter _
    rw [hbefore] at hperm
    exact (eq_of_perm_of_length_le_one hperm.symm (h k)).symm
  refine ⟨?_, ?_, ?_⟩
  · intro k
    by_cases hk : k = x.2.key
    · rw [hk, hself]
      exact Nat.zero_le 1
    · rw [hother k hk]
      exact h k
  · intro k hk
    unfold position
    rw [hother k hk]
  · unfold position
    rw [hself]
    rfl

end Pipeline

/-! ### Tables

A table is known by its name, and belongs to a stage by the role of the device.  What a table
counts is changed by the signals of other devices; here is what the steps of the device itself
do to it.
-/

section Tables

variable {setup : Setup} {s s' : Pipeline} {now : ℤ}

/-- The table of a stage is changed, and no other. -/
theorem tables_setTable (setup : Setup) (s : Pipeline) (op : QueueType)
    (f : ReadyTable → ReadyTable)
    (name : TableName) :
    (setTable setup s op ((tableOf setup s op).map f)).tables name =
      if readyTableOf setup.role op = some name then f (s.tables name) else s.tables name := by
  unfold setTable tableOf
  cases hop : readyTableOf setup.role op with
  | none => simp
  | some name' =>
      rw [Option.map_some, Option.map_some]
      dsimp only
      rw [Function.update_apply]
      by_cases hname : name = name'
      · rw [if_pos hname, if_pos (by rw [hname]), hname]
      · rw [if_neg hname, if_neg fun heq => hname (Option.some.inj heq).symm]

/-- What comes in with a tensor is still to be added. -/
theorem enqueueTensor_active {args : EnqueueArgs} (h : enqueueTensor setup s args now = .ok s') :
    s'.tables = s.tables ∧ s'.taken = s.taken ∧
      (∃ stages parts, stagesOf setup args = .ok stages ∧
        s'.issued = s.issued ++ [⟨args.context, stages, parts⟩]) ∧
      ∀ k, (active k s'.places).Perm (active k s.places) := by
  unfold enqueueTensor at h
  obtain ⟨_, _, h⟩ := bind_eq_ok h
  obtain ⟨stages, hstages, h⟩ := bind_eq_ok h
  obtain ⟨tasks, _, h⟩ := bind_eq_ok h
  have hactive (new : List Task) (k : ℕ) :
      (active k (addingPlaces (s.adding ++ [new]) ++ queuePlaces s.queues ++
        s.taken.map fun t => (.taken, t))).Perm (active k s.places) := by
    unfold Pipeline.places
    rw [addingPlaces_append, active_append, active_append, active_append, active_append,
      active_append, active_adding, List.append_nil]
  cases stages with
  | nil =>
      cases h
      exact ⟨rfl, rfl, ⟨[], tasks.length, hstages, rfl⟩, hactive []⟩
  | cons op rest =>
      cases h
      exact ⟨rfl, rfl, ⟨op :: rest, tasks.length, hstages, rfl⟩, hactive tasks⟩

theorem finishOrProceed_tables {t : Task} (h : finishOrProceed setup s t now = .ok s') :
    s'.tables = s.tables ∧ s'.issued = s.issued ∧ s'.taken = s.taken.erase t := by
  obtain ⟨_, op, rest, p, _, _, h⟩ := finishOrProceed_cases h
  rcases h with ⟨next, rest', q, _, _, rfl⟩ | ⟨_, h⟩
  · exact ⟨rfl, rfl, rfl⟩
  · obtain ⟨call, _, h⟩ := finishPart_spec h
    rcases h with ⟨_, rfl⟩ | ⟨_, rfl⟩
    · exact ⟨rfl, rfl, rfl⟩
    · exact ⟨rfl, rfl, rfl⟩

theorem complete_tables {i : ℕ} (h : complete setup s i now = .ok s') :
    s'.tables = s.tables ∧ s'.issued = s.issued ∧ s'.taken = s.taken ∧ s'.places = s.places := by
  unfold complete at h
  cases hc : s.completing[i]? with
  | none =>
      rw [hc] at h
      cases h
  | some c =>
      simp only [hc] at h
      split at h
      · obtain ⟨p, _, h⟩ := bind_eq_ok h
        cases h
        exact ⟨rfl, rfl, rfl, rfl⟩
      · cases h
        exact ⟨rfl, rfl, rfl, rfl⟩
      · obtain ⟨p, _, h⟩ := bind_eq_ok h
        cases h
        exact ⟨rfl, rfl, rfl, rfl⟩

theorem addReadyCount_readyCount {rt rt' : ReadyTable} {key : ℕ}
    (h : rt.addReadyCount key = .ok rt') : rt'.readyCount = rt.readyCount := by
  unfold ReadyTable.addReadyCount at h
  obtain ⟨_, _, h⟩ := bind_eq_ok h
  cases h
  rfl

/-- No step changes what a full table counts. -/
theorem step_readyCount {a : Act} (h : s.step setup a = .ok s') (name : TableName) :
    (s'.tables name).readyCount = (s.tables name).readyCount := by
  cases a with
  | enqueueTensor args now => rw [(enqueueTensor_active h).1]
  | addNext call =>
      obtain ⟨t, rest, op, q, _, _, _, rfl⟩ := addNext_cases h
      rfl
  | getTask op ready now =>
      have h : runGetTask setup s op ready now = .ok s' := h
      unfold runGetTask at h
      split at h
      · cases h
        rfl
      · rename_i t' q rt hget
        obtain ⟨t, _, _, _, hrt, _⟩ := ScheduledQueue.getTask_spec hget
        obtain ⟨p, _, rfl⟩ := take_cases h
        change ((setTable setup s op rt).tables name).readyCount = _
        rw [hrt, tables_setTable]
        split
        · rfl
        · rfl
  | getTaskOf op key ready now =>
      obtain ⟨found, hfound, h⟩ := bind_eq_ok h
      cases found with
      | none =>
          cases h
          rfl
      | some found =>
          obtain ⟨p, _, rfl⟩ := take_cases h
          rfl
  | finishOrProceed t now => rw [(finishOrProceed_tables h).1]
  | complete i now => rw [(complete_tables h).1]
  | addReadyCount name' key =>
      obtain ⟨rt, hrt, heq⟩ := map_eq_ok h
      subst heq
      have hcount := addReadyCount_readyCount (orStop_eq_ok hrt)
      change (Function.update s.tables name' rt name).readyCount = _
      rw [Function.update_apply]
      split
      · rename_i hname
        rw [hname]
        exact hcount
      · rfl
  | reset op key cnt =>
      cases h
      rw [tables_setTable]
      split
      · rfl
      · rfl

end Tables

/-! ### Events -/

/-- A task that has been taken has no event to wait for. -/
def Pipeline.EventsGone (s : Pipeline) : Prop :=
  ∀ x ∈ s.places, x.2.readyEvent = none ∨
    x.1 ≠ .taken ∧ ∃ issue ∈ s.issued, x.2.queueList = issue.stages

namespace Pipeline.EventsGone

variable {setup : Setup} {s s' : Pipeline}

/-- A task has moved. -/
theorem of_move (h : s.EventsGone) {x y : Place × Task} {R : List (Place × Task)}
    (hbefore : s.places.Perm (x :: R)) (hafter : s'.places.Perm (y :: R))
    (hissued : s'.issued = s.issued)
    (hy : y.2.readyEvent = none ∨ y.1 ≠ .taken ∧ ∃ issue ∈ s.issued, y.2.queueList = issue.stages) :
    s'.EventsGone := by
  intro z hz
  rw [hissued]
  rcases List.mem_cons.mp (hafter.mem_iff.mp hz) with heq | hz
  · rw [heq]
    exact hy
  · exact h z (hbefore.mem_iff.mpr (List.mem_cons_of_mem _ hz))

/-- A new call. -/
theorem extend {x : Place × Task} {issue : Issue} (h : x.2.readyEvent = none ∨
      x.1 ≠ .taken ∧ ∃ issue ∈ s.issued, x.2.queueList = issue.stages) :
    x.2.readyEvent = none ∨
      x.1 ≠ .taken ∧ ∃ issue' ∈ s.issued ++ [issue], x.2.queueList = issue'.stages := by
  rcases h with hnone | ⟨hplace, issue', hissue, hlist⟩
  · exact .inl hnone
  · exact .inr ⟨hplace, issue', List.mem_append_left _ hissue, hlist⟩

theorem step {a : Act} (h : s.EventsGone) (hs : s.step setup a = .ok s') : s'.EventsGone := by
  cases step_effect hs with
  | quiet _ hplaces _ hissued =>
      intro x hx
      rw [hissued]
      exact h x (hplaces ▸ hx)
  | enqueued args now issue tasks _ _ _ htasks hplaces _ hissued =>
      intro x hx
      rw [hissued]
      rcases List.mem_append.mp (hplaces.mem_iff.mp hx) with hx | hx
      · obtain ⟨t, ht, rfl⟩ := List.mem_map.mp hx
        obtain ⟨i, hi⟩ := List.getElem?_of_mem ht
        obtain ⟨_, _, _, hlist, _⟩ := htasks.task i t hi
        exact .inr ⟨Place.noConfusion, issue, List.mem_append_right _ List.mem_cons_self, hlist⟩
      · exact extend (h x hx)
  | skipped args now issue _ hplaces _ hissued =>
      intro x hx
      rw [hissued]
      exact extend (h x (hplaces ▸ hx))
  | added call op t R _ hbefore hafter _ hissued =>
      refine h.of_move hbefore hafter hissued ?_
      rcases h _ (hbefore.mem_iff.mpr List.mem_cons_self) with hnone | ⟨_, hlist⟩
      · exact .inl hnone
      · exact .inr ⟨Place.noConfusion, hlist⟩
  | got _ op t t' now p R ht' hbefore hafter _ hissued =>
      refine h.of_move hbefore hafter hissued (.inl ?_)
      rw [ht']
  | passed op next rest t now p R _ hbefore hafter _ hissued =>
      refine h.of_move hbefore hafter hissued (.inl ?_)
      rcases h _ (hbefore.mem_iff.mpr List.mem_cons_self) with hnone | ⟨htaken, _⟩
      · exact hnone
      · exact absurd rfl htaken
  | counted op t call now p R _ _ hbefore hafter _ hissued =>
      intro x hx
      rw [hissued]
      exact h x (hbefore.mem_iff.mpr (List.mem_cons_of_mem _ (hafter.mem_iff.mp hx)))
  | completed i now c _ hplaces _ hissued =>
      intro x hx
      rw [hissued]
      exact h x (hplaces ▸ hx)

end Pipeline.EventsGone

/-! ### Runs of a device -/

namespace Pipeline.Reachable

variable {setup : Setup} {s : Pipeline}

theorem eventsGone (h : Pipeline.Reachable setup s) : s.EventsGone := by
  refine Transition.Reachable.invariant (P := fun s => s.EventsGone) ?_ ?_ h
  · intro s hs x hx
    obtain ⟨p, _, rfl⟩ := hs
    cases hx
  · intro s a s' _ hgone hs
    exact hgone.step hs

theorem readyCount (h : Pipeline.Reachable setup s) (name : TableName) :
    (s.tables name).readyCount = setup.readyCount name := by
  refine Transition.Reachable.invariant
    (P := fun s => (s.tables name).readyCount = setup.readyCount name) ?_ ?_ h
  · intro s hs
    obtain ⟨p, _, rfl⟩ := hs
    rfl
  · intro s a s' _ hcount hs
    exact (step_readyCount hs name).trans hcount

/-- Only the signal root has a scheduled queue. -/
theorem not_isScheduled (h : Pipeline.Reachable setup s) (hrole : setup.role.isSignalRoot = false)
    (op : QueueType) : (s.queues op).isScheduled = false := by
  refine Transition.Reachable.invariant
    (P := fun s => (s.queues op).isScheduled = false) ?_ ?_ h
  · intro s hs
    obtain ⟨p, _, rfl⟩ := hs
    change (ScheduledQueue.init op setup.role _ _).isScheduled = false
    unfold ScheduledQueue.init
    rw [hrole]
    simp
  · intro s a s' _ hsched hs
    exact (step_lends hs).1.trans hsched

end Pipeline.Reachable

end DeepInc.Worker
