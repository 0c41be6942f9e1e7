/-
The history of a queue.

Tasks come and go, and in between counts and credits change.  A task that has come may wait for
its event, for the count of its key or for credits, and a task that came later may overtake it.
So what a call of `getTask` returns depends on all that happened before.

What has come and gone says which tasks are in the queue: those that have come and not gone.  It
also says in which order: of a scheduled queue the one of higher priority first, and of one
priority the one with the lower key; of others as they came.  Sorting is done whenever a task is
added, by a sort that need not be stable, and taking a task leaves the others in their order.

`getTask` goes through them in this order and returns the first that may go.  It changes the
queue by that task, the credits by its length, and nothing else.

All of it is for queues in which no two tasks of one key wait at once.  Then the order has no
ties, and any sort gives the same.
-/
import DeepInc.Lib.System
import DeepInc.Proofs.Worker.ScheduledQueue

namespace DeepInc.Worker

open Outcome Transition

/-! ### A queue in use -/

/-- What has come to a queue, and gone. -/
inductive QueueEvent
  | added (t : Task)
  | returned (t : Task)
  deriving DecidableEq

def QueueEvent.key : QueueEvent → ℕ
  | .added t => t.key
  | .returned t => t.key

/-- A queue, with the table it waits on. -/
structure QueueInUse where
  queue : ScheduledQueue
  /-- `_rt` -/
  table : Option ReadyTable
  /-- newest first -/
  log : List QueueEvent

namespace QueueInUse

/-- The calls on a queue and on its table. -/
inductive Op
  | addTask (t : Task)
  | getTask (ready : ℕ → Bool)
  | getTaskOf (ready : ℕ → Bool) (key : ℕ)
  | reportFinish (size : ℕ)
  | addReadyCount (key : ℕ)
  | setReadyCount (key : ℕ) (cnt : ℤ)
  | clearReadyCount (key : ℕ)

/-- One call. -/
def step (sort : TaskSort) (s : QueueInUse) : Op → Except Fault QueueInUse
  | .addTask t => do
    let q ← s.queue.addTask sort t
    .ok { s with queue := q, log := .added t :: s.log }
  | .getTask ready =>
    match s.queue.getTask ready s.table with
    | none => .ok s
    | some (t, q, rt) => .ok { queue := q, table := rt, log := .returned t :: s.log }
  | .getTaskOf ready key => do
    match ← s.queue.getTaskOf ready key with
    | none => .ok s
    | some (t, q) => .ok { s with queue := q, log := .returned t :: s.log }
  | .reportFinish size => .ok { s with queue := s.queue.reportFinish size }
  | .addReadyCount key =>
    match s.table with
    | none => .ok s
    | some rt => do
      let rt ← rt.addReadyCount key
      .ok { s with table := some rt }
  | .setReadyCount key cnt => .ok { s with table := s.table.map (·.setReadyCount key cnt) }
  | .clearReadyCount key => .ok { s with table := s.table.map (·.clearReadyCount key) }

/-- Before any call, with any credits and any counts. -/
def Started (s : QueueInUse) : Prop := s.queue.sq = [] ∧ s.log = []

/-- No task comes while another of its key is queued. -/
def OneOfAKey (s : QueueInUse) : Op → Prop
  | .addTask t => ∀ u ∈ s.queue.sq, u.key ≠ t.key
  | _ => True

instance (s : QueueInUse) : ∀ op, Decidable (s.OneOfAKey op)
  | .addTask t => inferInstanceAs (Decidable (∀ u ∈ s.queue.sq, u.key ≠ t.key))
  | .getTask _ | .getTaskOf _ _ | .reportFinish _ | .addReadyCount _ | .setReadyCount _ _
  | .clearReadyCount _ => inferInstanceAs (Decidable True)

/-! ### What the history says

The three things that are said of the result, in terms of the history alone: the tasks, their
order, and which of them may go.
-/

/-- The tasks that have come and not gone, oldest first. -/
def queued : List QueueEvent → List Task
  | [] => []
  | .added t :: past => queued past ++ [t]
  | .returned t :: past => (queued past).filter fun u => decide (u.key ≠ t.key)

/-- Higher priority first and of one priority lower key first, or as they came. -/
def inOrder (isScheduled : Bool) (ts : List Task) : List Task :=
  if isScheduled then TaskSort.insertion.sort ts else ts

/--
What has happened to the tasks of one key, newest first: they come and go in turn, and each goes
as it came but for its ready event.  The last is there, if it has not gone.
-/
inductive InTurn : Option Task → List QueueEvent → Prop
  | start : InTurn none []
  | added {past : List QueueEvent} (t : Task) (h : InTurn none past) :
      InTurn (some t) (.added t :: past)
  | returned {past : List QueueEvent} {t : Task} (h : InTurn (some t) past) :
      InTurn none (.returned { t with readyEvent := none } :: past)

/-- What has happened to the tasks of a key. -/
def eventsOf (key : ℕ) (log : List QueueEvent) : List QueueEvent :=
  log.filter fun e => decide (e.key = key)

/-- A task may go: its event has come, there are credits for it, and its key is ready. -/
structure MayGo (ready : ℕ → Bool) (s : QueueInUse) (t : Task) : Prop where
  event : ∀ e, t.readyEvent = some e → ready e = true
  credits : s.queue.isScheduled = true → t.len ≤ s.queue.credits
  count : ∀ rt, s.table = some rt → rt.readyTable t.key = rt.readyCount

/-! ### Tasks of different keys

With different keys two sorted lists of the same tasks are equal, so that it does not matter how
a list was sorted, or when.
-/

section Keys

variable {ts ts' l₁ l₂ : List Task} {t u : Task} {key : ℕ}

/-- The queued task of a key. -/
def held (key : ℕ) (ts : List Task) : Option Task := ts.find? fun u => decide (u.key = key)

theorem held_eq_some (hkeys : (ts.map (·.key)).Nodup) :
    held key ts = some u ↔ u ∈ ts ∧ u.key = key := by
  constructor
  · intro h
    exact ⟨List.mem_of_find?_eq_some h, by simpa using List.find?_some h⟩
  · intro h
    obtain ⟨hu, hkey⟩ := h
    cases hfind : held key ts with
    | none =>
        have hnone := List.find?_eq_none.mp hfind u hu
        exact absurd (decide_eq_true hkey) hnone
    | some v =>
        have hv : v ∈ ts := List.mem_of_find?_eq_some hfind
        have hvkey : v.key = key := by simpa using List.find?_some hfind
        rw [List.inj_on_of_nodup_map hkeys hv hu (hvkey.trans hkey.symm)]

theorem held_eq_none : held key ts = none ↔ ∀ u ∈ ts, u.key ≠ key := by
  unfold held
  simp

/-- Only the tasks of a key count for what is held of it. -/
theorem held_congr (hkeys : (ts.map (·.key)).Nodup) (hkeys' : (ts'.map (·.key)).Nodup)
    (h : ∀ u : Task, u.key = key → (u ∈ ts ↔ u ∈ ts')) : held key ts = held key ts' := by
  apply Option.ext
  intro u
  rw [held_eq_some hkeys, held_eq_some hkeys']
  constructor
  · intro hu
    exact ⟨(h u hu.2).mp hu.1, hu.2⟩
  · intro hu
    exact ⟨(h u hu.2).mpr hu.1, hu.2⟩

/-- Without the task in the middle. -/
theorem filter_key_ne (hkeys : ((l₁ ++ t :: l₂).map (·.key)).Nodup) :
    ((l₁ ++ t :: l₂).filter fun u => decide (u.key ≠ t.key)) = l₁ ++ l₂ := by
  rw [List.map_append, List.map_cons] at hkeys
  have hother : ∀ u ∈ l₁ ++ l₂, u.key ≠ t.key := by
    intro u hu heq
    have hmem : t.key ∈ l₁.map (·.key) ++ l₂.map (·.key) := by
      rw [← List.map_append]
      exact List.mem_map.mpr ⟨u, hu, heq⟩
    have hnodup := (List.perm_middle (a := t.key)).nodup_iff.mp hkeys
    exact (List.nodup_cons.mp hnodup).1 hmem
  rw [List.filter_append, List.filter_cons_of_neg (by simp), ← List.filter_append]
  apply List.filter_eq_self.mpr
  intro u hu
  exact decide_eq_true (hother u hu)

/-- There is one order for tasks of different keys. -/
theorem eq_of_sorted (hkeys : (ts.map (·.key)).Nodup) (hperm : ts.Perm ts')
    (h : ts.Pairwise fun a b => a.priority > b.priority ∨ a.priority = b.priority ∧ a.key ≤ b.key)
    (h' : ts'.Pairwise fun a b =>
      a.priority > b.priority ∨ a.priority = b.priority ∧ a.key ≤ b.key) : ts = ts' := by
  refine List.Perm.eq_of_pairwise ?_ h h' hperm
  intro a b ha hb hab hba
  have hkey : a.key = b.key := by omega
  exact List.inj_on_of_nodup_map hkeys ha (hperm.mem_iff.mpr hb) hkey

theorem inOrder_perm (isScheduled : Bool) (ts : List Task) : (inOrder isScheduled ts).Perm ts := by
  unfold inOrder
  by_cases hsched : isScheduled = true
  · rw [if_pos hsched]
    exact TaskSort.insertion.perm ts
  · rw [if_neg hsched]

/-- Sorted tasks are in order. -/
theorem eq_inOrder_of_sorted (hkeys : (ts.map (·.key)).Nodup) (hperm : ts.Perm ts')
    (h : ts.Pairwise fun a b =>
      a.priority > b.priority ∨ a.priority = b.priority ∧ a.key ≤ b.key) :
    ts = inOrder true ts' :=
  eq_of_sorted hkeys (hperm.trans (inOrder_perm true ts').symm) h (TaskSort.insertion.sorted ts')

/-- What is in order stays so when a task goes. -/
theorem inOrder_filter {isScheduled : Bool} (hkeys : ((l₁ ++ t :: l₂).map (·.key)).Nodup)
    (h : l₁ ++ t :: l₂ = inOrder isScheduled ts) :
    l₁ ++ l₂ = inOrder isScheduled (ts.filter fun u => decide (u.key ≠ t.key)) := by
  have hfilter := filter_key_ne hkeys
  cases isScheduled with
  | false =>
      have hts : l₁ ++ t :: l₂ = ts := h
      rw [hts] at hfilter
      exact hfilter.symm
  | true =>
      have hsub : (l₁ ++ l₂).Sublist (l₁ ++ t :: l₂) := (List.sublist_cons_self t l₂).append_left l₁
      have hsorted := TaskSort.insertion.sorted ts
      have hsort : l₁ ++ t :: l₂ = TaskSort.insertion.sort ts := h
      rw [← hsort] at hsorted
      refine eq_inOrder_of_sorted (hkeys.sublist (hsub.map _)) ?_ (hsorted.sublist hsub)
      rw [← hfilter, h]
      exact (inOrder_perm true ts).filter _

end Keys

section Events

variable {log : List QueueEvent} {key : ℕ}

theorem eventsOf_cons_self (e : QueueEvent) (h : e.key = key) :
    eventsOf key (e :: log) = e :: eventsOf key log :=
  List.filter_cons_of_pos (decide_eq_true h)

theorem eventsOf_cons_ne (e : QueueEvent) (h : e.key ≠ key) :
    eventsOf key (e :: log) = eventsOf key log :=
  List.filter_cons_of_neg (by simpa using h)

end Events

/-! ### What holds in every run -/

variable {sort : TaskSort} {s s' : QueueInUse}

/-- What the history says of the queue. -/
structure Inv (s : QueueInUse) : Prop where
  nodup : (s.queue.sq.map (·.key)).Nodup
  order : s.queue.sq = inOrder s.queue.isScheduled (queued s.log)
  turns : ∀ key, InTurn (held key s.queue.sq) (eventsOf key s.log)
  named : ∀ t ∈ s.queue.sq, t.tensorName ≠ ""

theorem Started.inv (h : Started s) : s.Inv := by
  have hlog : queued s.log = [] := by rw [h.2]; rfl
  constructor
  · rw [h.1]
    exact List.nodup_nil
  · rw [h.1, hlog]
    exact (List.Perm.nil_eq (inOrder_perm s.queue.isScheduled []).symm)
  · intro key
    rw [h.1, h.2]
    exact .start
  · rw [h.1]
    simp

/-- Credits and counts are no matter. -/
theorem Inv.of_same (h : s.Inv) (hsq : s'.queue.sq = s.queue.sq)
    (hsched : s'.queue.isScheduled = s.queue.isScheduled) (hlog : s'.log = s.log) : s'.Inv := by
  constructor
  · rw [hsq]
    exact h.nodup
  · rw [hsq, hsched, hlog]
    exact h.order
  · intro key
    rw [hsq, hlog]
    exact h.turns key
  · rw [hsq]
    exact h.named

/-- A task comes whose key is not there. -/
theorem Inv.added {q : ScheduledQueue} {t : Task} (h : s.Inv)
    (hkey : ∀ u ∈ s.queue.sq, u.key ≠ t.key) (hq : s.queue.addTask sort t = .ok q) :
    Inv { s with queue := q, log := .added t :: s.log } := by
  obtain ⟨hperm, hsched⟩ := ScheduledQueue.addTask_spec hq
  have hfresh : t.key ∉ s.queue.sq.map (·.key) := by
    intro hmem
    obtain ⟨u, hu, heq⟩ := List.mem_map.mp hmem
    exact hkey u hu heq
  have hnodup : (q.sq.map (·.key)).Nodup :=
    (hperm.map _).nodup_iff.mpr (List.nodup_cons.mpr ⟨hfresh, h.nodup⟩)
  unfold ScheduledQueue.addTask at hq
  obtain ⟨_, hcheck, hq⟩ := bind_eq_ok hq
  refine ⟨hnodup, ?_, ?_, ?_⟩
  · change q.sq = inOrder q.isScheduled (queued s.log ++ [t])
    cases hq
    dsimp only at hnodup ⊢
    have horder := h.order
    cases hs : s.queue.isScheduled with
    | false =>
        rw [hs] at horder
        rw [if_neg Bool.false_ne_true, horder]
        rfl
    | true =>
        rw [hs, if_pos rfl] at hnodup
        rw [hs] at horder
        rw [if_pos rfl]
        refine eq_inOrder_of_sorted hnodup ((sort.perm _).trans ?_) (sort.sorted _)
        rw [horder]
        exact (inOrder_perm true _).append_right [t]
  · intro key
    change InTurn (held key q.sq) (eventsOf key (.added t :: s.log))
    by_cases ht : t.key = key
    · have hnone : held key s.queue.sq = none := by
        rw [← ht]
        exact held_eq_none.mpr hkey
      have hturns := h.turns key
      rw [hnone] at hturns
      rw [(held_eq_some hnodup).mpr ⟨hperm.mem_iff.mpr (List.mem_cons_self ..), ht⟩,
        eventsOf_cons_self (.added t) ht]
      exact .added t hturns
    · have hsame : held key q.sq = held key s.queue.sq := by
        apply held_congr hnodup h.nodup
        intro u hu
        rw [hperm.mem_iff, List.mem_cons]
        constructor
        · intro hmem
          rcases hmem with heq | hmem
          · exact absurd (heq ▸ hu) ht
          · exact hmem
        · exact .inr
      rw [hsame, eventsOf_cons_ne (.added t) ht]
      exact h.turns key
  · intro u hu
    rcases List.mem_cons.mp (hperm.mem_iff.mp hu) with heq | hu
    · rw [heq]
      exact of_decide_eq_true (check_eq_ok hcheck)
    · exact h.named u hu

/-- A task goes, from anywhere in the queue. -/
theorem Inv.returned {q : ScheduledQueue} {table : Option ReadyTable} {t : Task} {l₁ l₂ : List Task}
    (h : s.Inv) (hbefore : s.queue.sq = l₁ ++ t :: l₂) (hafter : q.sq = l₁ ++ l₂)
    (hsched : q.isScheduled = s.queue.isScheduled) :
    Inv
      { queue := q
        table := table
        log := .returned { t with readyEvent := none } :: s.log } := by
  have hkeys : ((l₁ ++ t :: l₂).map (·.key)).Nodup := hbefore ▸ h.nodup
  have hsub : (l₁ ++ l₂).Sublist (l₁ ++ t :: l₂) := (List.sublist_cons_self t l₂).append_left l₁
  have hnodup : (q.sq.map (·.key)).Nodup := by
    rw [hafter]
    exact hkeys.sublist (hsub.map _)
  have hmem : ∀ u, u ∈ q.sq ↔ u ∈ s.queue.sq ∧ u.key ≠ t.key := by
    intro u
    rw [hafter, hbefore, ← filter_key_ne hkeys, List.mem_filter, decide_eq_true_eq]
  refine ⟨hnodup, ?_, ?_, ?_⟩
  · change q.sq = inOrder q.isScheduled ((queued s.log).filter fun u => decide (u.key ≠ t.key))
    rw [hafter, hsched]
    exact inOrder_filter hkeys (hbefore.symm.trans h.order)
  · intro key
    change InTurn (held key q.sq) (eventsOf key (.returned { t with readyEvent := none } :: s.log))
    by_cases ht : t.key = key
    · have hturns := h.turns key
      have hthere : t ∈ s.queue.sq := by
        rw [hbefore]
        exact List.mem_append_right l₁ (List.mem_cons_self ..)
      have hnone : held key q.sq = none := by
        rw [← ht]
        apply held_eq_none.mpr
        intro u hu
        exact ((hmem u).mp hu).2
      rw [(held_eq_some h.nodup).mpr ⟨hthere, ht⟩] at hturns
      rw [hnone, eventsOf_cons_self (.returned { t with readyEvent := none }) ht]
      exact .returned hturns
    · have hsame : held key q.sq = held key s.queue.sq := by
        apply held_congr hnodup h.nodup
        intro u hu
        rw [hmem u]
        constructor
        · intro h
          exact h.1
        · intro h
          exact ⟨h, fun heq => ht (heq.symm.trans hu)⟩
      rw [hsame, eventsOf_cons_ne (.returned { t with readyEvent := none }) ht]
      exact h.turns key
  · intro u hu
    exact h.named u ((hmem u).mp hu).1

theorem Inv.step {op : Op} (h : s.Inv) (hone : s.OneOfAKey op) (hs : s.step sort op = .ok s') :
    s'.Inv := by
  cases op with
  | addTask t =>
      obtain ⟨q, hq, hs⟩ := bind_eq_ok hs
      cases hs
      exact h.added hone hq
  | getTask ready =>
      unfold QueueInUse.step at hs
      cases hget : s.queue.getTask ready s.table with
      | none =>
          simp only [hget] at hs
          cases hs
          exact h
      | some r =>
          simp only [hget] at hs
          cases hs
          obtain ⟨⟨t, rest⟩, htake, heq⟩ := Option.map_eq_some_iff.mp hget
          obtain ⟨_, l₁, l₂, hbefore, hafter, _⟩ := takeFirst_spec htake
          cases heq
          exact h.returned hbefore hafter rfl
  | getTaskOf ready key =>
      obtain ⟨found, hget, hs⟩ := bind_eq_ok hs
      cases found with
      | none =>
          cases hs
          exact h
      | some r =>
          cases hs
          unfold ScheduledQueue.getTaskOf at hget
          obtain ⟨_, _, hget⟩ := bind_eq_ok hget
          obtain ⟨found, hfound, hget⟩ := bind_eq_ok hget
          obtain ⟨⟨t, rest⟩, rfl, heq⟩ := Option.map_eq_some_iff.mp (Except.ok.inj hget)
          obtain ⟨_, l₁, l₂, hbefore, hafter⟩ := ScheduledQueue.findKey_spec hfound
          cases heq
          exact h.returned hbefore hafter rfl
  | reportFinish size =>
      cases hs
      exact h.of_same (ScheduledQueue.reportFinish_sq ..)
        (ScheduledQueue.reportFinish_isScheduled ..) rfl
  | addReadyCount key =>
      unfold QueueInUse.step at hs
      cases htable : s.table with
      | none =>
          simp only [htable] at hs
          cases hs
          exact h
      | some rt =>
          simp only [htable] at hs
          obtain ⟨rt', _, hs⟩ := bind_eq_ok hs
          cases hs
          exact h.of_same rfl rfl rfl
  | setReadyCount key cnt =>
      cases hs
      exact h.of_same rfl rfl rfl
  | clearReadyCount key =>
      cases hs
      exact h.of_same rfl rfl rfl

/-- The states calls arrive at, when no two tasks of a key are queued at once. -/
def Arrives (sort : TaskSort) : QueueInUse → Prop :=
  Reachable Started (Guarded OneOfAKey fun s op s' => s.step sort op = .ok s')

theorem Arrives.inv (h : Arrives sort s) : s.Inv := by
  refine Reachable.invariant (P := Inv) ?_ ?_ h
  · intro s hs
    exact hs.inv
  · intro s op s' _ hinv hs
    exact hinv.step hs.1 hs.2

/-- What `getTask` checks of the name of a task has been checked before. -/
theorem Arrives.named {t : Task} (h : Arrives sort s) (ht : t ∈ s.queue.sq) : t.tensorName ≠ "" :=
  h.inv.named t ht

/-- What the scan of `getTask` does not pass over is what may go. -/
theorem eligible_iff {ready : ℕ → Bool} {t : Task} :
    s.queue.eligible ready s.table t = true ↔ s.MayGo ready t := by
  unfold ScheduledQueue.eligible ScheduledQueue.isReady
  rw [Bool.and_eq_true, Bool.and_eq_true, Option.all_eq_true, Option.all_eq_true, Bool.or_eq_true,
    Bool.not_eq_true', decide_eq_true_eq]
  constructor
  · intro h
    obtain ⟨⟨hevent, hcredits⟩, hcount⟩ := h
    refine ⟨hevent, ?_, ?_⟩
    · intro hsched
      rcases hcredits with hfalse | hle
      · rw [hsched] at hfalse
        cases hfalse
      · exact hle
    · intro rt hrt
      exact of_decide_eq_true (hcount rt hrt)
  · intro h
    refine ⟨⟨h.event, ?_⟩, ?_⟩
    · cases hsched : s.queue.isScheduled with
      | false => exact .inl rfl
      | true => exact .inr (h.credits hsched)
    · intro rt hrt
      exact decide_eq_true (h.count rt hrt)

/--
**What has come and gone says what `getTask` returns.**  The tasks in the queue are those that
have come and not gone; of them it returns the first that may go, and clears the count of its
key and of no other.
-/
theorem getTask_eq_first (h : Arrives sort s) :
    s.queue.sq = inOrder s.queue.isScheduled (queued s.log) ∧
      (∀ key, InTurn (held key s.queue.sq) (eventsOf key s.log)) ∧
      ∀ ready,
        (s.queue.getTask ready s.table = none ↔ ∀ t ∈ queued s.log, ¬s.MayGo ready t) ∧
          ∀ t' q table, s.queue.getTask ready s.table = some (t', q, table) →
            ∃ t earlier later,
              inOrder s.queue.isScheduled (queued s.log) = earlier ++ t :: later ∧
                s.MayGo ready t ∧ (∀ u ∈ earlier, ¬s.MayGo ready u) ∧
                t' = { t with readyEvent := none } ∧ q.sq = earlier ++ later ∧
                ∀ key, table.map (·.readyTable key) =
                  s.table.map fun rt => if key = t.key then 0 else rt.readyTable key := by
  have hinv := h.inv
  have hmem : ∀ t, t ∈ s.queue.sq ↔ t ∈ queued s.log := by
    intro t
    rw [hinv.order]
    exact (inOrder_perm _ _).mem_iff
  refine ⟨hinv.order, hinv.turns, fun ready => ⟨?_, ?_⟩⟩
  · unfold ScheduledQueue.getTask
    rw [Option.map_eq_none_iff, takeFirst_eq_none]
    constructor
    · intro hnone t ht hgo
      have hpass := hnone t ((hmem t).mpr ht)
      rw [eligible_iff.mpr hgo] at hpass
      cases hpass
    · intro hnone t ht
      apply Bool.eq_false_iff.mpr
      intro hpass
      exact hnone t ((hmem t).mp ht) (eligible_iff.mp hpass)
  · intro t' q table hget
    unfold ScheduledQueue.getTask at hget
    obtain ⟨⟨t, rest⟩, htake, heq⟩ := Option.map_eq_some_iff.mp hget
    obtain ⟨hpass, earlier, later, hsplit, hrest, hearlier⟩ := takeFirst_spec htake
    cases heq
    refine ⟨t, earlier, later, hinv.order ▸ hsplit, eligible_iff.mp hpass, ?_, rfl, hrest, ?_⟩
    · intro u hu hgo
      have hfalse := hearlier u hu
      rw [eligible_iff.mpr hgo] at hfalse
      cases hfalse
    · intro key
      rw [Option.map_map]
      congr 1
      funext rt
      exact Function.update_apply ..

/-! ### A queue with credits -/

/-- A task of a key, with its length and its priority. -/
def sampleTask (key len : ℕ) (priority : ℤ) : Task where
  tensorName := "w"
  key := key
  tensor := none
  output := none
  priority := priority
  readyEvent := none
  device := 0
  queueList := [.reduce]
  offset := 0
  len := len
  counterPtr := none
  totalPartnum := 1
  compressor := none
  context := 0
  part := 0

def sampleStart : QueueInUse where
  queue := { sq := [], credits := 10, isScheduled := true }
  table := some { readyCount := 1, readyTable := fun _ => 0 }
  log := []

/-- The task of higher priority has to wait for credits, and the other goes. -/
theorem getTask_eq_first_of_credits : ∃ s, Arrives .insertion s ∧
    inOrder s.queue.isScheduled (queued s.log) = [sampleTask 1 20 1, sampleTask 2 4 0] ∧
    ∃ q table, s.queue.getTask (fun _ => true) s.table = some (sampleTask 2 4 0, q, table) ∧
      ∃ t earlier later,
        inOrder s.queue.isScheduled (queued s.log) = earlier ++ t :: later ∧
          s.MayGo (fun _ => true) t ∧ (∀ u ∈ earlier, ¬s.MayGo (fun _ => true) u) ∧
          sampleTask 2 4 0 = { t with readyEvent := none } ∧ q.sq = earlier ++ later ∧
          ∀ key, table.map (·.readyTable key) =
            s.table.map fun rt => if key = t.key then 0 else rt.readyTable key := by
  have hrun : (run (fun (s : QueueInUse) op =>
        if s.OneOfAKey op then s.step .insertion op else .error .check) sampleStart
      [.addTask (sampleTask 2 4 0), .addTask (sampleTask 1 20 1), .addReadyCount 1,
        .addReadyCount 2]).toOption.map
      (fun s => (inOrder s.queue.isScheduled (queued s.log),
        (s.queue.getTask (fun _ => true) s.table).map (·.1))) =
      some ([sampleTask 1 20 1, sampleTask 2 4 0], some (sampleTask 2 4 0)) := by
    decide +kernel
  obtain ⟨s, hs, heq⟩ := Option.map_eq_some_iff.mp hrun
  obtain ⟨horder, hget⟩ := Prod.mk.inj heq
  obtain ⟨⟨t, q, table⟩, hget, rfl⟩ := Option.map_eq_some_iff.mp hget
  have harrives : Arrives .insertion s :=
    reachable_of_guarded_run _ (.start ⟨rfl, rfl⟩) (toOption_eq_some hs)
  refine ⟨s, harrives, horder, q, table, hget, ?_⟩
  exact ((getTask_eq_first harrives).2.2 _).2 _ _ _ hget

end QueueInUse

end DeepInc.Worker
