/-
What the calls on a queue put in and take out.

A queue is a list of tasks with credits, and is used by `addTask`, by `getTask` with and without
a key, and by `reportFinish`.  Here is one lemma for each of them that says what it does when it
does not fail.

A queue is read up to the order of its tasks: adding one puts it in, taking one takes it out,
and nothing else comes or goes.  `addTask` sorts a scheduled queue, and any sort will do that
gives the same tasks in an order; which tasks come out when is in `QueueHistory.lean`.

Credits are taken and given back in the unsigned type they are kept in.  A task is taken only if
there are as many as its length, and what is given back fits as long as it was taken before.
-/
import DeepInc.Proofs.Worker.Context
import DeepInc.Worker.ScheduledQueue
import Mathlib.Data.List.Sort

namespace DeepInc.Worker

open Outcome

/-! ### Taking the first -/

section TakeFirst

variable {α : Type} {p : α → Bool} {as rest : List α} {a : α}

/-- What is taken is the first that passes, and the others stay as they are. -/
theorem takeFirst_spec (h : takeFirst p as = some (a, rest)) :
    p a = true ∧ ∃ l₁ l₂, as = l₁ ++ a :: l₂ ∧ rest = l₁ ++ l₂ ∧ ∀ b ∈ l₁, p b = false := by
  induction as generalizing rest with
  | nil => cases h
  | cons b as ih =>
      unfold takeFirst at h
      by_cases hb : p b = true
      · rw [if_pos hb] at h
        cases h
        exact ⟨hb, [], as, rfl, rfl, by simp⟩
      · rw [if_neg hb] at h
        obtain ⟨⟨a', rest'⟩, htake, heq⟩ := Option.map_eq_some_iff.mp h
        cases heq
        obtain ⟨ha, l₁, l₂, rfl, rfl, hfirst⟩ := ih htake
        refine ⟨ha, b :: l₁, l₂, rfl, rfl, fun c hc => ?_⟩
        rcases List.mem_cons.mp hc with rfl | hc
        · exact Bool.eq_false_iff.mpr hb
        · exact hfirst c hc

theorem takeFirst_perm (h : takeFirst p as = some (a, rest)) : as.Perm (a :: rest) := by
  obtain ⟨_, l₁, l₂, rfl, rfl, _⟩ := takeFirst_spec h
  exact List.perm_middle

/-- Nothing is taken when nothing passes. -/
theorem takeFirst_eq_none : takeFirst p as = none ↔ ∀ a ∈ as, p a = false := by
  induction as with
  | nil => simp [takeFirst]
  | cons b as ih =>
      unfold takeFirst
      by_cases hb : p b = true
      · simp [hb]
      · rw [if_neg hb, Option.map_eq_none_iff, ih, List.forall_mem_cons]
        constructor
        · intro h
          exact ⟨Bool.eq_false_iff.mpr hb, h⟩
        · intro h
          exact h.2

end TakeFirst

/-- Insertion sort orders the tasks of a queue. -/
def TaskSort.insertion : TaskSort where
  sort := List.insertionSort fun a b =>
    a.priority > b.priority ∨ a.priority = b.priority ∧ a.key ≤ b.key
  perm := List.perm_insertionSort _
  sorted := by
    have htotal : Std.Total fun a b : Task =>
        a.priority > b.priority ∨ a.priority = b.priority ∧ a.key ≤ b.key := ⟨fun a b => by omega⟩
    have htrans : IsTrans Task fun a b =>
        a.priority > b.priority ∨ a.priority = b.priority ∧ a.key ≤ b.key :=
      ⟨fun a b c => by omega⟩
    exact List.pairwise_insertionSort _

namespace ScheduledQueue

variable {q q' : ScheduledQueue} {t t' : Task} {ready : ℕ → Bool}

/-! ### The calls

`getTask` takes the first task that passes its tests, wherever it is in the queue.  With a key
the first of that key is taken, and a check fails if it or a task in front of it waits for its
event.
-/

theorem addTask_spec {sort : TaskSort} (h : q.addTask sort t = .ok q') :
    q'.sq.Perm (t :: q.sq) ∧ q'.isScheduled = q.isScheduled := by
  unfold addTask at h
  obtain ⟨_, _, h⟩ := bind_eq_ok h
  cases h
  refine ⟨?_, rfl⟩
  have hback : (q.sq ++ [t]).Perm (t :: q.sq) := List.perm_append_singleton t q.sq
  dsimp only
  by_cases hsched : q.isScheduled = true
  · rw [if_pos hsched]
    exact (sort.perm _).trans hback
  · rw [if_neg hsched]
    exact hback

/-- The task of a queue that is taken, as it was, with what let it go. -/
theorem getTask_spec {rt rt' : Option ReadyTable} (h : q.getTask ready rt = some (t', q', rt')) :
    ∃ t, t' = { t with readyEvent := none } ∧ q.sq.Perm (t :: q'.sq) ∧
      q.eligible ready rt t = true ∧ rt' = rt.map (·.clearReadyCount t.key) ∧
      q'.isScheduled = q.isScheduled := by
  unfold getTask at h
  obtain ⟨⟨t, sq⟩, htake, heq⟩ := Option.map_eq_some_iff.mp h
  cases heq
  exact ⟨t, rfl, takeFirst_perm htake, (takeFirst_spec htake).1, rfl, rfl⟩

/-- The first task of a key is found, and the others stay as they are. -/
theorem findKey_spec {key : ℕ} {ts rest : List Task}
    (h : findKey ready key ts = .ok (some (t, rest))) :
    t.key = key ∧ ∃ l₁ l₂, ts = l₁ ++ t :: l₂ ∧ rest = l₁ ++ l₂ := by
  induction ts generalizing rest with
  | nil => cases h
  | cons u ts ih =>
      obtain ⟨_, _, h⟩ := bind_eq_ok h
      by_cases hkey : u.key = key
      · rw [if_pos hkey] at h
        cases h
        exact ⟨hkey, [], ts, rfl, rfl⟩
      · rw [if_neg hkey] at h
        obtain ⟨found, hfound, h⟩ := bind_eq_ok h
        obtain ⟨⟨t', rest'⟩, rfl, heq⟩ := Option.map_eq_some_iff.mp (Except.ok.inj h)
        cases heq
        obtain ⟨ht, l₁, l₂, rfl, rfl⟩ := ih hfound
        exact ⟨ht, u :: l₁, l₂, rfl, rfl⟩

theorem findKey_perm {key : ℕ} {ts rest : List Task}
    (h : findKey ready key ts = .ok (some (t, rest))) : ts.Perm (t :: rest) ∧ t.key = key := by
  obtain ⟨ht, l₁, l₂, rfl, rfl⟩ := findKey_spec h
  exact ⟨List.perm_middle, ht⟩

theorem getTaskOf_spec {key : ℕ} (h : q.getTaskOf ready key = .ok (some (t', q'))) :
    ∃ t, t' = { t with readyEvent := none } ∧ q.sq.Perm (t :: q'.sq) ∧ t.key = key ∧
      q'.isScheduled = q.isScheduled := by
  unfold getTaskOf at h
  obtain ⟨_, _, h⟩ := bind_eq_ok h
  obtain ⟨found, hfound, h⟩ := bind_eq_ok h
  obtain ⟨⟨t, sq⟩, rfl, heq⟩ := Option.map_eq_some_iff.mp (Except.ok.inj h)
  cases heq
  obtain ⟨hperm, ht⟩ := findKey_perm hfound
  exact ⟨t, rfl, hperm, ht, rfl⟩

@[simp] theorem reportFinish_sq (q : ScheduledQueue) (size : ℕ) : (q.reportFinish size).sq = q.sq := by
  unfold reportFinish
  split <;> rfl

@[simp] theorem reportFinish_isScheduled (q : ScheduledQueue) (size : ℕ) :
    (q.reportFinish size).isScheduled = q.isScheduled := by
  unfold reportFinish
  split <;> rfl

@[simp] theorem init_sq (type : QueueType) (role : Role) (credit : Option ℤ) (bound : ℕ) :
    (init type role credit bound).sq = [] := rfl

/-! ### Credits -/

theorem addTask_credits {sort : TaskSort} (h : q.addTask sort t = .ok q') :
    q'.credits = q.credits := by
  unfold addTask at h
  obtain ⟨_, _, h⟩ := bind_eq_ok h
  cases h
  rfl

/-- A scheduled queue has the credits for what it gives out. -/
theorem getTask_credits {rt rt' : Option ReadyTable} (hsched : q.isScheduled = true)
    (h : q.getTask ready rt = some (t', q', rt')) :
    t'.len ≤ q.credits ∧ q'.credits = q.credits - t'.len := by
  unfold getTask at h
  obtain ⟨⟨t, sq⟩, htake, heq⟩ := Option.map_eq_some_iff.mp h
  have hpass := (takeFirst_spec htake).1
  unfold eligible at hpass
  simp only [hsched, Bool.not_true, Bool.false_or, Bool.and_eq_true, decide_eq_true_eq] at hpass
  cases heq
  exact ⟨hpass.1.2, if_pos hsched⟩

/-- Of a scheduled queue no task is asked for by its key. -/
theorem not_isScheduled_of_getTaskOf {key : ℕ} {found : Option (Task × ScheduledQueue)}
    (h : q.getTaskOf ready key = .ok found) : q.isScheduled = false := by
  unfold getTaskOf at h
  obtain ⟨_, hcheck, _⟩ := bind_eq_ok h
  simpa using check_eq_ok hcheck

/-- What is reported comes back, as long as it fits. -/
theorem reportFinish_credits {size : ℕ} (hsched : q.isScheduled = true) (hsize : size < 2 ^ 31)
    (hsum : q.credits + size < 2 ^ 64) : (q.reportFinish size).credits = q.credits + size := by
  unfold reportFinish
  rw [if_pos hsched, int32_of_lt hsize]
  exact Nat.mod_eq_of_lt hsum

end ScheduledQueue

end DeepInc.Worker
