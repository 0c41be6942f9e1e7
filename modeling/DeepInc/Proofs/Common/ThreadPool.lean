/-
What the thread pool does with its tasks.

`Inv` is what holds in every run.  Tasks are taken in the order they came, and what was taken
is being run by one worker or is finished.  While a worker sleeps, every task that waits has a
wake-up of its own on the way: a `notify_one` still to be called, or a worker that is about to
look at the queue.  A worker only returns from a pool that is stopped and empty, and once
`notify_all` was called nobody sleeps.

From this follows what the pool is used for.  Every task is run once, and `~ThreadPool` does
not return before all of them are.  In a run in which no thread is starved, every task is
finished at last, and so is the destructor.
-/
import DeepInc.Common.ThreadPool
import DeepInc.Lib.Drain
import Mathlib.Algebra.Order.BigOperators.Group.Finset
import Mathlib.Order.Interval.Finset.Nat

namespace DeepInc.ThreadPool

open Transition

namespace Pool

variable {τ : Type} [DecidableEq τ] {threads : ℕ} {p p' : Pool τ}

/-- Workers that are about to look at the queue. -/
def looking (threads : ℕ) (p : Pool τ) : ℕ :=
  ∑ i ∈ Finset.range threads, if p.workers i = .atWait then 1 else 0

/-- What holds in every run. -/
structure Inv (threads : ℕ) (p : Pool τ) : Prop where
  fifo : p.enqueued = p.taken ++ p.tasks
  stopped : p.stop = true ↔ p.destructor ≠ .notCalled
  /-- a task that is run was taken, is not finished, and is run by one worker only -/
  running : ∀ i < threads, ∀ k t, p.workers i = .running k t →
    p.taken[k]? = some t ∧ k ∉ p.finished
  alone : ∀ i < threads, ∀ j < threads, ∀ k t t', p.workers i = .running k t →
    p.workers j = .running k t' → i = j
  taken : ∀ k < p.taken.length, k ∈ p.finished ∨ ∃ i < threads, ∃ t, p.workers i = .running k t
  finished : p.finished.Nodup ∧ ∀ k ∈ p.finished, k < p.taken.length
  /-- no wake-up is lost -/
  woken : (∃ i < threads, p.workers i = .asleep) → p.tasks.length ≤ p.toNotify + p.looking threads
  empty : ∀ i < threads, p.workers i = .returned → p.stop = true ∧ p.tasks = []
  notified : (∃ i < threads, p.workers i = .asleep) →
    p.destructor = .notCalled ∨ p.destructor = .notifying
  joined : p.destructor = .returned → ∀ i < threads, p.workers i = .returned

omit [DecidableEq τ] in
theorem enqueue_eq_ok {task : τ} (h : p.enqueue task = .ok p') : p.stop = false ∧
    p' = { p with
      tasks := p.tasks ++ [task], toNotify := p.toNotify + 1, enqueued := p.enqueued ++ [task] } := by
  unfold Pool.enqueue at h
  split at h
  · cases h
  · exact ⟨by simpa using ‹¬p.stop = true›, (Except.ok.inj h).symm⟩

theorem step_enqueue {task : τ} (h : Step threads p (.enqueue task) p') :
    p.enqueue task = .ok p' := by
  unfold Step move at h
  cases he : p.enqueue task with
  | error e =>
      simp only [he] at h
      cases h
  | ok q =>
      simp only [he] at h
      rw [← Option.some.inj h]

theorem step_finish {i : ℕ} (h : Step threads p (.finish i) p') :
    ∃ k t, i < threads ∧ p.workers i = .running k t ∧
      p' = { p.setWorker i .atWait with finished := p.finished ++ [k] } := by
  unfold Step move at h
  dsimp only at h
  split at h
  · obtain ⟨hi, rfl⟩ := Option.ite_some_none_eq_some.mp h
    exact ⟨_, _, hi, ‹_›, rfl⟩
  · cases h

theorem inv_init : Inv threads (init τ) := by
  constructor <;> simp [init]

omit [DecidableEq τ] in
/-- Who else is where, once a worker was moved. -/
theorem workers_setWorker (p : Pool τ) (i j : ℕ) (t : Thread τ) :
    (p.setWorker i t).workers j = if j = i then t else p.workers j :=
  Function.update_apply ..

theorem looking_setWorker (p : Pool τ) {i : ℕ} (hi : i < threads) (t : Thread τ) :
    (p.setWorker i t).looking threads + (if p.workers i = .atWait then 1 else 0) =
      p.looking threads + if t = .atWait then 1 else 0 :=
  sum_update (fun t : Thread τ => if t = .atWait then 1 else 0) p.workers hi t

/-- A task joins the queue, with a wake-up of its own. -/
theorem Inv.enqueue (h : Inv threads p) {task : τ} (he : p.enqueue task = .ok p') :
    Inv threads p' := by
  obtain ⟨hstop, rfl⟩ := enqueue_eq_ok he
  refine ⟨?_, h.stopped, h.running, h.alone, h.taken, h.finished, fun hsleep => ?_,
    fun i hi hr => ?_, h.notified, h.joined⟩
  · show p.enqueued ++ [task] = p.taken ++ (p.tasks ++ [task])
    rw [h.fifo, List.append_assoc]
  · have hwoken := h.woken hsleep
    show (p.tasks ++ [task]).length ≤ p.toNotify + 1 + p.looking threads
    rw [List.length_append, List.length_singleton]
    omega
  · exact absurd (h.empty i hi hr).1 (by rw [hstop]; nofun)

/-- A sleeper wakes, and uses up a notification or none. -/
theorem Inv.wake (h : Inv threads p) {i n : ℕ} (hi : i < threads) (hw : p.workers i = .asleep)
    (hn : p.toNotify ≤ n + 1) : Inv threads { p.setWorker i .atWait with toNotify := n } := by
  have hworkers (j : ℕ) : ({ p.setWorker i .atWait with toNotify := n } : Pool τ).workers j =
      if j = i then .atWait else p.workers j := p.workers_setWorker i j .atWait
  have hother {j : ℕ} {t : Thread τ} (hne : t ≠ .atWait)
      (ht : ({ p.setWorker i .atWait with toNotify := n } : Pool τ).workers j = t) :
      p.workers j = t := by
    rw [hworkers] at ht
    split at ht
    · exact absurd ht.symm hne
    · exact ht
  refine ⟨h.fifo, h.stopped, fun j hj k t hr => h.running j hj k t (hother nofun hr),
    fun j hj j' hj' k t t' hr hr' => h.alone j hj j' hj' k t t' (hother nofun hr) (hother nofun hr'),
    fun k hk => ?_, h.finished, fun hsleep => ?_,
    fun j hj hr => h.empty j hj (hother nofun hr), fun hsleep => ?_, fun hd => ?_⟩
  · refine (h.taken k hk).imp_right fun hrun => ?_
    obtain ⟨j, hj, t, hr⟩ := hrun
    refine ⟨j, hj, t, ?_⟩
    rw [hworkers, if_neg (by rintro rfl; rw [hw] at hr; cases hr)]
    exact hr
  · have hwoken := h.woken ⟨i, hi, hw⟩
    have hlook := p.looking_setWorker hi .atWait
    rw [hw] at hlook
    simp only [reduceCtorEq, if_false, if_true] at hlook
    show p.tasks.length ≤ n + (p.setWorker i .atWait).looking threads
    omega
  · exact h.notified ⟨i, hi, hw⟩
  · have := h.joined hd i hi
    rw [hw] at this
    cases this

/-- A worker takes the first task. -/
theorem Inv.take (h : Inv threads p) {i : ℕ} (hi : i < threads) (hw : p.workers i = .atWait)
    {task : τ} {rest : List τ} (ht : p.tasks = task :: rest) :
    Inv threads { p.setWorker i (.running p.taken.length task) with
      tasks := rest, taken := p.taken ++ [task] } := by
  set p' : Pool τ := { p.setWorker i (.running p.taken.length task) with
    tasks := rest, taken := p.taken ++ [task] } with hp'
  have hworkers (j : ℕ) : p'.workers j =
      if j = i then .running p.taken.length task else p.workers j := p.workers_setWorker i j _
  have hnew {k : ℕ} (hk : k ∈ p.finished) : k ≠ p.taken.length :=
    Nat.ne_of_lt (h.finished.2 k hk)
  -- what the others run was taken before
  have hold {j : ℕ} (hj : j < threads) {k : ℕ} {t : τ} (hr : p.workers j = .running k t) :
      k < p.taken.length := (List.getElem?_eq_some_iff.mp (h.running j hj k t hr).1).1
  refine ⟨?_, h.stopped, fun j hj k t hr => ?_, fun j hj j' hj' k t t' hr hr' => ?_, fun k hk => ?_,
    ⟨h.finished.1, fun k hk => ?_⟩, fun hsleep => ?_, fun j hj hr => ?_, fun hsleep => ?_,
    fun hd => ?_⟩
  · show p.enqueued = (p.taken ++ [task]) ++ rest
    rw [h.fifo, ht, List.append_assoc]
    rfl
  · rw [hworkers] at hr
    split at hr
    · obtain ⟨rfl, rfl⟩ := Thread.running.inj hr
      exact ⟨by simp [hp'], fun hk => hnew hk rfl⟩
    · obtain ⟨hget, hnot⟩ := h.running j hj k t hr
      exact ⟨by rw [← hget]; exact List.getElem?_append_left (hold hj hr), hnot⟩
  · rw [hworkers] at hr hr'
    split at hr <;> split at hr'
    · exact ‹j = i›.trans ‹j' = i›.symm
    · obtain ⟨rfl, -⟩ := Thread.running.inj hr
      exact absurd (hold hj' hr') (Nat.lt_irrefl _)
    · obtain ⟨rfl, -⟩ := Thread.running.inj hr'
      exact absurd (hold hj hr) (Nat.lt_irrefl _)
    · exact h.alone j hj j' hj' k t t' hr hr'
  · have hlen : k < p.taken.length ∨ k = p.taken.length := by
      have : k < (p.taken ++ [task]).length := hk
      rw [List.length_append, List.length_singleton] at this
      omega
    rcases hlen with hlt | rfl
    · refine (h.taken k hlt).imp_right fun hrun => ?_
      obtain ⟨j, hj, t, hr⟩ := hrun
      refine ⟨j, hj, t, ?_⟩
      rw [hworkers, if_neg (by rintro rfl; rw [hw] at hr; cases hr)]
      exact hr
    · exact .inr ⟨i, hi, task, by rw [hworkers, if_pos rfl]⟩
  · show k < (p.taken ++ [task]).length
    rw [List.length_append]
    exact Nat.lt_add_right _ (h.finished.2 k hk)
  · obtain ⟨j, hj, hs⟩ := hsleep
    rw [hworkers] at hs
    split at hs
    · cases hs
    · have hwoken := h.woken ⟨j, hj, hs⟩
      have hlook := p.looking_setWorker hi (.running p.taken.length task)
      rw [ht, List.length_cons] at hwoken
      rw [hw] at hlook
      simp only [reduceCtorEq, if_false, if_true] at hlook
      show rest.length ≤ p.toNotify + (p.setWorker i (.running p.taken.length task)).looking threads
      omega
  · rw [hworkers] at hr
    split at hr
    · cases hr
    · have := (h.empty j hj hr).2
      rw [ht] at this
      cases this
  · obtain ⟨j, hj, hs⟩ := hsleep
    rw [hworkers] at hs
    split at hs
    · cases hs
    · exact h.notified ⟨j, hj, hs⟩
  · have := h.joined hd i hi
    rw [hw] at this
    cases this

/-- A worker finds nothing to do, and goes to sleep or returns. -/
theorem Inv.idle (h : Inv threads p) {i : ℕ} (hi : i < threads) (hw : p.workers i = .atWait)
    (ht : p.tasks = []) {t : Thread τ}
    (hsleep : t = .asleep ∧ p.stop = false ∨ t = .returned ∧ p.stop = true) :
    Inv threads (p.setWorker i t) := by
  have hrunning : ∀ k task, t ≠ .running k task := by
    rcases hsleep with ⟨rfl, -⟩ | ⟨rfl, -⟩ <;> exact nofun
  have hother {j k : ℕ} {task : τ} (hr : (p.setWorker i t).workers j = .running k task) :
      p.workers j = .running k task := by
    rw [workers_setWorker] at hr
    split at hr
    · exact absurd hr (hrunning k task)
    · exact hr
  refine ⟨h.fifo, h.stopped, fun j hj k task hr => h.running j hj k task (hother hr),
    fun j hj j' hj' k task task' hr hr' => h.alone j hj j' hj' k task task' (hother hr) (hother hr'),
    fun k hk => ?_, h.finished, fun _ => ?_, fun j hj hr => ?_, fun hs => ?_, fun hd => ?_⟩
  · refine (h.taken k hk).imp_right fun hrun => ?_
    obtain ⟨j, hj, task, hr⟩ := hrun
    refine ⟨j, hj, task, ?_⟩
    rw [workers_setWorker, if_neg (by rintro rfl; rw [hw] at hr; cases hr)]
    exact hr
  · show p.tasks.length ≤ _
    rw [ht]
    exact Nat.zero_le _
  · rw [workers_setWorker] at hr
    split at hr
    · rcases hsleep with ⟨rfl, -⟩ | ⟨-, hstop⟩
      · cases hr
      · exact ⟨hstop, ht⟩
    · exact h.empty j hj hr
  · obtain ⟨j, hj, hs⟩ := hs
    rw [workers_setWorker] at hs
    split at hs
    · rcases hsleep with ⟨-, hstop⟩ | ⟨rfl, -⟩
      · refine .inl (by_contra fun hd => ?_)
        rw [h.stopped.mpr hd] at hstop
        cases hstop
      · cases hs
    · exact h.notified ⟨j, hj, hs⟩
  · have := h.joined hd i hi
    rw [hw] at this
    cases this

/-- A task is done, and its worker comes back for another. -/
theorem Inv.finish (h : Inv threads p) {i k : ℕ} {task : τ} (hi : i < threads)
    (hw : p.workers i = .running k task) :
    Inv threads { p.setWorker i .atWait with finished := p.finished ++ [k] } := by
  set p' : Pool τ := { p.setWorker i .atWait with finished := p.finished ++ [k] } with hp'
  have hworkers (j : ℕ) : p'.workers j = if j = i then .atWait else p.workers j :=
    p.workers_setWorker i j _
  have hother {j : ℕ} {t : Thread τ} (ht : p'.workers j = t) (hne : t ≠ .atWait) :
      j ≠ i ∧ p.workers j = t := by
    rw [hworkers] at ht
    split at ht
    · exact absurd ht.symm hne
    · exact ⟨‹_›, ht⟩
  obtain ⟨hget, hnot⟩ := h.running i hi k task hw
  refine ⟨h.fifo, h.stopped, fun j hj k' t hr => ?_, fun j hj j' hj' k' t t' hr hr' =>
      h.alone j hj j' hj' k' t t' (hother hr nofun).2 (hother hr' nofun).2, fun k' hk => ?_,
    ⟨?_, fun k' hk => ?_⟩, fun hsleep => ?_, fun j hj hr => h.empty j hj (hother hr nofun).2,
    fun hsleep => ?_, fun hd => ?_⟩
  · obtain ⟨hne, hrun⟩ := hother hr nofun
    obtain ⟨hget', hnot'⟩ := h.running j hj k' t hrun
    refine ⟨hget', fun hmem => ?_⟩
    rcases List.mem_append.mp hmem with hmem | hmem
    · exact hnot' hmem
    · obtain rfl := List.mem_singleton.mp hmem
      exact hne (h.alone j hj i hi k' t task hrun hw)
  · rcases h.taken k' hk with hmem | ⟨j, hj, t, hr⟩
    · exact .inl (List.mem_append_left _ hmem)
    · by_cases hji : j = i
      · subst hji
        obtain ⟨rfl, -⟩ := Thread.running.inj (hw.symm.trans hr)
        exact .inl (List.mem_append_right _ (List.mem_singleton.mpr rfl))
      · exact .inr ⟨j, hj, t, by rw [hworkers, if_neg hji]; exact hr⟩
  · show (p.finished ++ [k]).Nodup
    rw [← List.concat_eq_append]
    exact h.finished.1.concat hnot
  · rcases List.mem_append.mp hk with hmem | hmem
    · exact h.finished.2 k' hmem
    · obtain rfl := List.mem_singleton.mp hmem
      exact (List.getElem?_eq_some_iff.mp hget).1
  · obtain ⟨j, hj, hs⟩ := hsleep
    have hwoken := h.woken ⟨j, hj, (hother hs nofun).2⟩
    have hlook := p.looking_setWorker hi .atWait
    rw [hw] at hlook
    simp only [reduceCtorEq, if_false, if_true] at hlook
    show p.tasks.length ≤ p.toNotify + (p.setWorker i .atWait).looking threads
    omega
  · obtain ⟨j, hj, hs⟩ := hsleep
    exact h.notified ⟨j, hj, (hother hs nofun).2⟩
  · have := h.joined hd i hi
    rw [hw] at this
    cases this

omit [DecidableEq τ] in
theorem workers_wakeAll (p : Pool τ) (i : ℕ) :
    p.wakeAll.workers i ≠ .asleep ∧
      ∀ t, t ≠ .atWait → t ≠ .asleep → (p.wakeAll.workers i = t ↔ p.workers i = t) := by
  unfold wakeAll
  dsimp only
  cases hw : p.workers i <;> grind

/-- Every step keeps what holds. -/
theorem Inv.step (h : Inv threads p) {a : Move τ} (hstep : Step threads p a p') :
    Inv threads p' := by
  cases a with
  | enqueue task => exact h.enqueue (step_enqueue hstep)
  | notifyOne o =>
      cases o with
      | some i =>
          obtain ⟨⟨hn, hi, hw⟩, rfl⟩ := Option.ite_some_none_eq_some.mp hstep
          exact h.wake hi hw (by omega)
      | none =>
          obtain ⟨⟨hn, hnobody⟩, rfl⟩ := Option.ite_some_none_eq_some.mp hstep
          exact { h with woken := fun ⟨i, hi, hw⟩ => absurd hw (hnobody i hi) }
  | wait i =>
      obtain ⟨⟨hi, hw⟩, rfl⟩ := Option.ite_some_none_eq_some.mp hstep
      unfold atPredicate
      split
      · exact h.take hi hw ‹_›
      · split
        · exact h.idle hi hw ‹_› (.inr ⟨rfl, ‹_›⟩)
        · exact h.idle hi hw ‹_› (.inl ⟨rfl, by simpa using ‹¬p.stop = true›⟩)
  | wakeUp i =>
      obtain ⟨⟨hi, hw⟩, rfl⟩ := Option.ite_some_none_eq_some.mp hstep
      exact h.wake hi hw (Nat.le_succ _)
  | finish i =>
      obtain ⟨k, t, hi, hw, rfl⟩ := step_finish hstep
      exact h.finish hi hw
  | stop =>
      obtain ⟨hd, rfl⟩ := Option.ite_some_none_eq_some.mp hstep
      exact { h with
        stopped := ⟨fun _ => nofun, fun _ => rfl⟩
        empty := fun i hi hr => ⟨rfl, (h.empty i hi hr).2⟩
        notified := fun _ => .inr rfl
        joined := nofun }
  | notifyAll =>
      obtain ⟨hd, rfl⟩ := Option.ite_some_none_eq_some.mp hstep
      have hsame {i : ℕ} {t : Thread τ} (ht : p.wakeAll.workers i = t) (hne : t ≠ .atWait)
          (hne' : t ≠ .asleep) : p.workers i = t := ((p.workers_wakeAll i).2 t hne hne').mp ht
      exact { h with
        stopped := ⟨fun _ => nofun, fun _ => h.stopped.mpr (by rw [hd]; nofun)⟩
        running := fun i hi k t hr => h.running i hi k t (hsame hr nofun nofun)
        alone := fun i hi j hj k t t' hr hr' =>
          h.alone i hi j hj k t t' (hsame hr nofun nofun) (hsame hr' nofun nofun)
        taken := fun k hk => (h.taken k hk).imp_right fun ⟨i, hi, t, hr⟩ =>
          ⟨i, hi, t, ((p.workers_wakeAll i).2 (.running k t) nofun nofun).mpr hr⟩
        woken := fun ⟨i, _, hs⟩ => absurd hs (p.workers_wakeAll i).1
        empty := fun i hi hr => h.empty i hi (hsame hr nofun nofun)
        notified := fun ⟨i, _, hs⟩ => absurd hs (p.workers_wakeAll i).1
        joined := nofun }
  | join =>
      obtain ⟨⟨hd, hall⟩, rfl⟩ := Option.ite_some_none_eq_some.mp hstep
      exact { h with
        stopped := ⟨fun _ => nofun, fun _ => h.stopped.mpr (by rw [hd]; nofun)⟩
        notified := fun ⟨i, hi, hs⟩ => nomatch (hall i hi).symm.trans hs
        joined := fun _ => hall }

theorem inv_of_reachable (h : Reachable (· = init τ) (Step threads) p) : Inv threads p := by
  refine h.invariant ?_ fun _ _ _ _ hinv hstep => hinv.step hstep
  rintro p rfl
  exact inv_init

/-- When the destructor has returned, everything was run. -/
theorem Inv.finished_of_returned (h : Inv threads p) (hthreads : 0 < threads)
    (hd : p.destructor = .returned) : p.finished.Perm (List.range p.enqueued.length) := by
  have hall := h.joined hd
  have hempty := (h.empty 0 hthreads (hall 0 hthreads)).2
  have htaken : p.enqueued = p.taken := by rw [h.fifo, hempty, List.append_nil]
  refine (List.perm_ext_iff_of_nodup h.finished.1 List.nodup_range).mpr fun k => ?_
  rw [List.mem_range, htaken]
  refine ⟨h.finished.2 k, fun hk => (h.taken k hk).resolve_right ?_⟩
  rintro ⟨i, hi, t, hr⟩
  exact nomatch (hall i hi).symm.trans hr

/--
**Every task is run once, in the order the tasks came.**  Whatever the clients, the workers and
the destructor do in between: the tasks taken are the first ones enqueued, the others wait in
their order; a task that was taken is either finished, once, or run by exactly one worker; while
a worker sleeps there is a wake-up on its way for every task that waits; and `~ThreadPool` only
returns when all are finished.
-/
theorem tasks_run_once (hthreads : 0 < threads) (h : Reachable (· = init τ) (Step threads) p) :
    p.enqueued = p.taken ++ p.tasks ∧
      (∀ k < p.taken.length, (k ∈ p.finished ∨ ∃! i, i < threads ∧ ∃ t, p.workers i = .running k t) ∧
        ∀ i < threads, ∀ t, p.workers i = .running k t → p.taken[k]? = some t ∧ k ∉ p.finished) ∧
      p.finished.Nodup ∧
      ((∃ i < threads, p.workers i = .asleep) → p.tasks.length ≤ p.toNotify + p.looking threads) ∧
      (p.destructor = .returned → p.finished.Perm (List.range p.enqueued.length)) := by
  have hinv := inv_of_reachable h
  refine ⟨hinv.fifo, fun k hk => ⟨(hinv.taken k hk).imp_right ?_, fun i hi t hr =>
    hinv.running i hi k t hr⟩, hinv.finished.1, hinv.woken, hinv.finished_of_returned hthreads⟩
  rintro ⟨i, hi, t, hr⟩
  refine ⟨i, ⟨hi, t, hr⟩, ?_⟩
  rintro j ⟨hj, t', hr'⟩
  exact hinv.alone j hj i hi k t' t hr' hr

/-- Two workers, two tasks and a destructor: the first task is done and the second is run while
the pool is being stopped. -/
theorem tasks_run_once_two : ∃ p : Pool ℕ, p.taken = [7, 8] ∧ p.finished = [0] ∧
    p.workers 1 = .running 1 8 ∧ p.stop = true ∧
    ∀ i < 2, ∀ t, p.workers i = .running 1 t → (p.taken)[1]? = some t ∧ 1 ∉ p.finished := by
  have hrun : Reachable (· = init ℕ) (Step 2) _ := reachable_of_foldlM
    [.enqueue 7, .wait 0, .enqueue 8, .wait 1, .finish 0, .stop] (.start rfl) rfl
  exact ⟨_, rfl, rfl, rfl, rfl, ((tasks_run_once (by decide) hrun).2.1 1 (by decide)).2⟩

/-! ### What happens in the end

A thread that is not starved gets to every step of its own.  What that comes to is measured: how
far the workers are from looking at the queue again, and how much is before the task that is
waited for.
-/

/-- The steps of the workers and of the destructor, and the notifications. -/
def Scheduled : Move τ → Prop
  | .notifyOne _ | .wait _ | .finish _ | .notifyAll | .join => True
  | .enqueue _ | .wakeUp _ | .stop => False

/-- How far a worker is from returning. -/
def weight : Thread τ → ℕ
  | .asleep => 3
  | .running _ _ => 2
  | .atWait => 1
  | .returned => 0

/-- How far all workers are. -/
def load (threads : ℕ) (p : Pool τ) : ℕ := ∑ i ∈ Finset.range threads, weight (p.workers i)

omit [DecidableEq τ] in
theorem load_setWorker (p : Pool τ) {i : ℕ} (hi : i < threads) (t : Thread τ) :
    (p.setWorker i t).load threads + weight (p.workers i) = p.load threads + weight t :=
  sum_update weight p.workers hi t

omit [DecidableEq τ] in
theorem weight_wakeAll (p : Pool τ) (i : ℕ) :
    weight (p.wakeAll.workers i) ≤ weight (p.workers i) ∧
      (p.workers i = .asleep → weight (p.wakeAll.workers i) < weight (p.workers i)) := by
  unfold wakeAll
  dsimp only
  cases p.workers i <;> simp [weight]

omit [DecidableEq τ] in
theorem load_wakeAll (p : Pool τ) : p.wakeAll.load threads ≤ p.load threads :=
  Finset.sum_le_sum fun i _ => (p.weight_wakeAll i).1

omit [DecidableEq τ] in
theorem load_wakeAll_lt (p : Pool τ) (h : ∃ i < threads, p.workers i = .asleep) :
    p.wakeAll.load threads < p.load threads := by
  obtain ⟨i, hi, hw⟩ := h
  exact Finset.sum_lt_sum (fun j _ => (p.weight_wakeAll j).1)
    ⟨i, Finset.mem_range.mpr hi, (p.weight_wakeAll i).2 hw⟩

omit [DecidableEq τ] in
/-- What a worker at the predicate does is something. -/
theorem atPredicate_ne (p : Pool τ) (i : ℕ) : (p.atPredicate i).workers i ≠ .atWait := by
  unfold atPredicate
  split
  · simp [setWorker]
  · split <;> simp [setWorker]

theorem enabled_wait {i : ℕ} (hi : i < threads) (hw : p.workers i = .atWait) :
    Enabled (Step threads) p (.wait i) :=
  ⟨p.atPredicate i, if_pos ⟨hi, hw⟩, fun heq => p.atPredicate_ne i (by rw [heq]; exact hw)⟩

theorem enabled_finish {i k : ℕ} {t : τ} (hi : i < threads) (hw : p.workers i = .running k t) :
    Enabled (Step threads) p (.finish i) := by
  refine ⟨{ p.setWorker i .atWait with finished := p.finished ++ [k] }, ?_, fun heq => ?_⟩
  · unfold Step move
    simp only [hw]
    exact if_pos hi
  · have := congrArg (fun p => p.finished.length) heq
    simp at this

theorem enabled_notifyOne {i : ℕ} (hi : i < threads) (hw : p.workers i = .asleep)
    (hn : 0 < p.toNotify) : Enabled (Step threads) p (.notifyOne (some i)) := by
  refine ⟨{ p.setWorker i .atWait with toNotify := p.toNotify - 1 }, if_pos ⟨hn, hi, hw⟩,
    fun heq => ?_⟩
  have := congrArg (fun p => p.toNotify) heq
  simp only at this
  omega

/-! ### A task gets its turn

While a task waits, each step takes a task from in front of it or brings a worker nearer to the
queue; once it is taken, only its own worker can end it.  The rule is that of `Lib/Fair.lean`,
with the tasks before number `k` and the load of the workers as the measure.
-/

/-- Number `k` gets nearer to its end. -/
def HelpsTask (threads k : ℕ) (p : Pool τ) : Move τ → Prop
  | .wait i => p.taken.length ≤ k ∧ i < threads ∧ p.workers i = .atWait
  | .finish i => i < threads ∧ ∃ n t, p.workers i = .running n t ∧ (p.taken.length ≤ k ∨ n = k)
  | .notifyOne (some i) =>
    p.taken.length ≤ k ∧ i < threads ∧ p.workers i = .asleep ∧ 0 < p.toNotify
  | _ => False

/-- The tasks before number `k`, and how far the workers are while it waits. -/
def taskMeasure (threads k : ℕ) (p : Pool τ) : ℕ :=
  if p.taken.length ≤ k then 2 * (k + 1 - p.taken.length) + p.load threads else 0

/-- Something can be done for a task that is not finished. -/
theorem Inv.exists_helpsTask (h : Inv threads p) (hthreads : 0 < threads) {k : ℕ}
    (hk : k < p.enqueued.length) (hnot : k ∉ p.finished) :
    ∃ a, Scheduled a ∧ HelpsTask threads k p a := by
  by_cases htaken : p.taken.length ≤ k
  · by_cases hlook : ∃ i < threads, p.workers i = .atWait
    · obtain ⟨i, hi, hw⟩ := hlook
      exact ⟨.wait i, trivial, htaken, hi, hw⟩
    · by_cases hrun : ∃ i < threads, ∃ n t, p.workers i = .running n t
      · obtain ⟨i, hi, n, t, hw⟩ := hrun
        exact ⟨.finish i, trivial, hi, n, t, hw, .inl htaken⟩
      · have hlen : p.enqueued.length = p.taken.length + p.tasks.length := by
          rw [h.fifo, List.length_append]
        -- so the first worker sleeps, and a notification is on its way
        have hsleep : p.workers 0 = .asleep := by
          cases hw : p.workers 0 with
          | atWait => exact absurd ⟨0, hthreads, hw⟩ hlook
          | running n t => exact absurd ⟨0, hthreads, n, t, hw⟩ hrun
          | returned =>
              rw [(h.empty 0 hthreads hw).2, List.length_nil] at hlen
              omega
          | asleep => rfl
        have hwoken := h.woken ⟨0, hthreads, hsleep⟩
        have hnobody : p.looking threads = 0 := Finset.sum_eq_zero fun i hi =>
          if_neg fun hw => hlook ⟨i, Finset.mem_range.mp hi, hw⟩
        exact ⟨.notifyOne (some 0), trivial, htaken, hthreads, hsleep, by omega⟩
  · obtain ⟨i, hi, t, hw⟩ := (h.taken k (Nat.lt_of_not_le htaken)).resolve_left hnot
    exact ⟨.finish i, trivial, hi, k, t, hw, .inr rfl⟩

omit [DecidableEq τ] in
/-- Once a task is taken, only its end helps it. -/
theorem HelpsTask.finish_of_taken {k : ℕ} (hk : k < p.taken.length) {a : Move τ}
    (h : HelpsTask threads k p a) :
    ∃ i < threads, ∃ t, a = .finish i ∧ p.workers i = .running k t := by
  cases a with
  | wait i => exact absurd h.1 (Nat.not_le_of_lt hk)
  | finish i =>
      obtain ⟨hi, n, t, hw, hle | rfl⟩ := h
      · exact absurd hle (Nat.not_le_of_lt hk)
      · exact ⟨i, hi, t, rfl, hw⟩
  | notifyOne o =>
      cases o with
      | some i => exact absurd h.1 (Nat.not_le_of_lt hk)
      | none => exact h.elim
  | enqueue task | wakeUp i | stop | notifyAll | join => exact h.elim

omit [DecidableEq τ] in
/-- What helps still does, when no worker is elsewhere. -/
theorem HelpsTask.mono {k : ℕ} {a : Move τ} (h : HelpsTask threads k p a)
    (htaken : p'.taken = p.taken) (hworkers : ∀ i < threads, p'.workers i = p.workers i)
    (hnotify : (∃ i < threads, p.workers i = .asleep) → p.toNotify ≤ p'.toNotify) :
    HelpsTask threads k p' a := by
  cases a with
  | wait i => exact ⟨htaken ▸ h.1, h.2.1, (hworkers i h.2.1).trans h.2.2⟩
  | finish i =>
      obtain ⟨hi, n, t, hw, hle⟩ := h
      exact ⟨hi, n, t, (hworkers i hi).trans hw, htaken ▸ hle⟩
  | notifyOne o =>
      cases o with
      | some i =>
          obtain ⟨hle, hi, hw, hn⟩ := h
          exact ⟨htaken ▸ hle, hi, (hworkers i hi).trans hw,
            Nat.lt_of_lt_of_le hn (hnotify ⟨i, hi, hw⟩)⟩
      | none => exact h.elim
  | enqueue task | wakeUp i | stop | notifyAll | join => exact h.elim

theorem HelpsTask.enabled {k : ℕ} {a : Move τ} (h : HelpsTask threads k p a) :
    Enabled (Step threads) p a := by
  cases a with
  | wait i => exact enabled_wait h.2.1 h.2.2
  | finish i =>
      obtain ⟨hi, n, t, hw, -⟩ := h
      exact enabled_finish hi hw
  | notifyOne o =>
      cases o with
      | some i => exact enabled_notifyOne h.2.1 h.2.2.1 h.2.2.2
      | none => exact h.elim
  | enqueue task | wakeUp i | stop | notifyAll | join => exact h.elim

/-- Only its end takes a task away from its worker. -/
theorem running_kept {a : Move τ} (hstep : Step threads p a p') {i k : ℕ} {t : τ}
    (hw : p.workers i = .running k t) : a = .finish i ∨ p'.workers i = .running k t := by
  have hkept {j : ℕ} {t' : Thread τ} (hne : p.workers j ≠ .running k t) :
      (p.setWorker j t').workers i = .running k t := by
    rw [workers_setWorker, if_neg (by rintro rfl; exact hne hw)]
    exact hw
  cases a with
  | enqueue task =>
      obtain ⟨-, rfl⟩ := enqueue_eq_ok (step_enqueue hstep)
      exact .inr hw
  | notifyOne o =>
      refine .inr ?_
      cases o with
      | some j =>
          obtain ⟨⟨-, -, hj⟩, rfl⟩ := Option.ite_some_none_eq_some.mp hstep
          exact hkept (by rw [hj]; nofun)
      | none =>
          obtain ⟨-, rfl⟩ := Option.ite_some_none_eq_some.mp hstep
          exact hw
  | wait j =>
      obtain ⟨⟨-, hj⟩, rfl⟩ := Option.ite_some_none_eq_some.mp hstep
      have hne : p.workers j ≠ .running k t := by rw [hj]; nofun
      refine .inr ?_
      unfold atPredicate
      split
      · exact hkept hne
      · split <;> exact hkept hne
  | wakeUp j =>
      obtain ⟨⟨-, hj⟩, rfl⟩ := Option.ite_some_none_eq_some.mp hstep
      exact .inr (hkept (by rw [hj]; nofun))
  | finish j =>
      obtain ⟨n, t', -, -, rfl⟩ := step_finish hstep
      by_cases hij : i = j
      · exact .inl (by rw [hij])
      · refine .inr ?_
        show (p.setWorker j .atWait).workers i = _
        rw [workers_setWorker, if_neg hij]
        exact hw
  | stop | join =>
      obtain ⟨-, rfl⟩ := Option.ite_some_none_eq_some.mp hstep
      exact .inr hw
  | notifyAll =>
      obtain ⟨-, rfl⟩ := Option.ite_some_none_eq_some.mp hstep
      exact .inr (((p.workers_wakeAll i).2 (.running k t) nofun nofun).mpr hw)

/-- What was enqueued and taken stays on the record. -/
theorem record_kept {a : Move τ} (hstep : Step threads p a p') :
    p.taken <+: p'.taken ∧ p.enqueued <+: p'.enqueued := by
  have hsame : p.taken <+: p.taken ∧ p.enqueued <+: p.enqueued :=
    ⟨List.prefix_rfl, List.prefix_rfl⟩
  cases a with
  | enqueue task =>
      obtain ⟨-, rfl⟩ := enqueue_eq_ok (step_enqueue hstep)
      exact ⟨List.prefix_rfl, List.prefix_append _ _⟩
  | wait j =>
      obtain ⟨-, rfl⟩ := Option.ite_some_none_eq_some.mp hstep
      unfold atPredicate
      split
      · exact ⟨List.prefix_append _ _, List.prefix_rfl⟩
      · split <;> exact hsame
  | notifyOne o =>
      cases o <;> obtain ⟨-, rfl⟩ := Option.ite_some_none_eq_some.mp hstep <;> exact hsame
  | finish j =>
      obtain ⟨k, t, -, -, rfl⟩ := step_finish hstep
      exact hsame
  | wakeUp i | stop | notifyAll | join =>
      obtain ⟨-, rfl⟩ := Option.ite_some_none_eq_some.mp hstep
      exact hsame

/-- The last step of a task. -/
theorem mem_finished_of_finish {i k : ℕ} {t : τ} (hstep : Step threads p (.finish i) p')
    (hw : p.workers i = .running k t) : k ∈ p'.finished := by
  obtain ⟨n, t', -, hw', rfl⟩ := step_finish hstep
  obtain ⟨rfl, -⟩ := Thread.running.inj (hw.symm.trans hw')
  exact List.mem_append_right _ (List.mem_singleton.mpr rfl)

/-- What a step is for a task that was taken. -/
theorem step_of_taken {k : ℕ} (hk : k < p.taken.length) {a : Move τ}
    (hstep : Step threads p a p') :
    k ∈ p'.finished ∨ (taskMeasure threads k p' ≤ taskMeasure threads k p ∧
      ¬HelpsTask threads k p a ∧ ∀ b, HelpsTask threads k p b → HelpsTask threads k p' b) := by
  by_cases hend : ∃ i t, a = .finish i ∧ p.workers i = .running k t
  · obtain ⟨i, t, rfl, hw⟩ := hend
    exact .inl (mem_finished_of_finish hstep hw)
  · refine .inr ⟨?_, fun hhelps => ?_, fun b hb => ?_⟩
    · have := (record_kept hstep).1.length_le
      unfold taskMeasure
      rw [if_neg (by omega), if_neg (by omega)]
    · obtain ⟨i, -, t, rfl, hw⟩ := hhelps.finish_of_taken hk
      exact hend ⟨i, t, rfl, hw⟩
    · obtain ⟨i, hi, t, rfl, hw⟩ := hb.finish_of_taken hk
      refine ⟨hi, k, t, (running_kept hstep hw).resolve_left ?_, .inr rfl⟩
      rintro rfl
      exact hend ⟨i, t, rfl, hw⟩

omit [DecidableEq τ] in
/-- Nothing changed for the tasks that wait. -/
theorem step_of_same {k : ℕ} {a : Move τ} (ha : ¬HelpsTask threads k p a)
    (htaken : p'.taken = p.taken) (hworkers : ∀ i < threads, p'.workers i = p.workers i)
    (hnotify : (∃ i < threads, p.workers i = .asleep) → p.toNotify ≤ p'.toNotify) :
    taskMeasure threads k p' ≤ taskMeasure threads k p ∧ ¬HelpsTask threads k p a ∧
      ∀ b, HelpsTask threads k p b → HelpsTask threads k p' b := by
  have hload : p'.load threads = p.load threads :=
    Finset.sum_congr rfl fun i hi => by rw [hworkers i (Finset.mem_range.mp hi)]
  refine ⟨Nat.le_of_eq ?_, ha, fun b hb => hb.mono htaken hworkers hnotify⟩
  unfold taskMeasure
  rw [htaken, hload]

omit [DecidableEq τ] in
/-- While the task waits, the measure falls with the load. -/
theorem taskMeasure_lt {k : ℕ} (hk : p.taken.length ≤ k) (htaken : p'.taken = p.taken)
    (hload : p'.load threads < p.load threads) :
    taskMeasure threads k p' < taskMeasure threads k p := by
  unfold taskMeasure
  rw [htaken, if_pos hk, if_pos hk]
  omega

/-- What a step is for a task that waits. -/
theorem Inv.step_of_waiting (h : Inv threads p) {k : ℕ} (hk : p.taken.length ≤ k)
    (hlt : k < p.enqueued.length) {a : Move τ} (hstep : Step threads p a p') :
    taskMeasure threads k p' < taskMeasure threads k p ∨
      (taskMeasure threads k p' ≤ taskMeasure threads k p ∧
        ¬HelpsTask threads k p a ∧ ∀ b, HelpsTask threads k p b → HelpsTask threads k p' b) := by
  cases a with
  | enqueue task =>
      obtain ⟨-, rfl⟩ := enqueue_eq_ok (step_enqueue hstep)
      exact .inr (step_of_same id rfl (fun _ _ => rfl) fun _ => Nat.le_succ _)
  | notifyOne o =>
      cases o with
      | some i =>
          obtain ⟨⟨-, hi, hw⟩, rfl⟩ := Option.ite_some_none_eq_some.mp hstep
          have hload := p.load_setWorker hi .atWait
          rw [hw] at hload
          simp only [weight] at hload
          exact .inl (taskMeasure_lt hk rfl
            (show (p.setWorker i .atWait).load threads < p.load threads by omega))
      | none =>
          obtain ⟨⟨-, hnobody⟩, rfl⟩ := Option.ite_some_none_eq_some.mp hstep
          exact .inr (step_of_same id rfl (fun _ _ => rfl)
            fun ⟨i, hi, hw⟩ => absurd hw (hnobody i hi))
  | wait i =>
      obtain ⟨⟨hi, hw⟩, rfl⟩ := Option.ite_some_none_eq_some.mp hstep
      refine .inl ?_
      unfold atPredicate
      split
      · rename_i task rest ht
        have hload := p.load_setWorker hi (.running p.taken.length task)
        rw [hw] at hload
        simp only [weight] at hload
        unfold taskMeasure
        rw [if_pos hk]
        show (if (p.taken ++ [task]).length ≤ k then 2 * (k + 1 - (p.taken ++ [task]).length) +
          (p.setWorker i (.running p.taken.length task)).load threads else 0) < _
        rw [List.length_append, List.length_singleton]
        split <;> omega
      · rename_i ht
        rw [h.fifo, ht, List.append_nil] at hlt
        exact absurd hlt (Nat.not_lt_of_le hk)
  | wakeUp i =>
      obtain ⟨⟨hi, hw⟩, rfl⟩ := Option.ite_some_none_eq_some.mp hstep
      have hload := p.load_setWorker hi .atWait
      rw [hw] at hload
      simp only [weight] at hload
      exact .inl (taskMeasure_lt hk rfl (by omega))
  | finish i =>
      obtain ⟨n, t, hi, hw, rfl⟩ := step_finish hstep
      have hload := p.load_setWorker hi .atWait
      rw [hw] at hload
      simp only [weight] at hload
      exact .inl (taskMeasure_lt hk rfl
        (show (p.setWorker i .atWait).load threads < p.load threads by omega))
  | stop | join =>
      obtain ⟨-, rfl⟩ := Option.ite_some_none_eq_some.mp hstep
      exact .inr (step_of_same id rfl (fun _ _ => rfl) fun _ => Nat.le_refl _)
  | notifyAll =>
      obtain ⟨-, rfl⟩ := Option.ite_some_none_eq_some.mp hstep
      by_cases hsleep : ∃ i < threads, p.workers i = .asleep
      · exact .inl (taskMeasure_lt hk rfl
          (show p.wakeAll.load threads < p.load threads from p.load_wakeAll_lt hsleep))
      · refine .inr (step_of_same id rfl (fun i hi => ?_) fun _ => Nat.le_refl _)
        show p.wakeAll.workers i = p.workers i
        unfold wakeAll
        dsimp only
        split
        · exact absurd ⟨i, hi, ‹_›⟩ hsleep
        · rfl

/-- The rule for number `k`. -/
theorem task_variant (hthreads : 0 < threads) (k : ℕ) :
    Variant (Step threads) Scheduled (fun p : Pool τ => Inv threads p ∧ k < p.enqueued.length)
      (fun p => k ∈ p.finished) (taskMeasure threads k) (HelpsTask threads k) where
  exists_helps := fun _ h hnot => h.1.exists_helpsTask hthreads h.2 hnot
  enabled := fun _ _ _ _ hhelps => hhelps.enabled
  step := by
    intro p a p' ⟨hinv, hlt⟩ _ hstep
    by_cases hk : p.taken.length ≤ k
    · exact .inr (hinv.step_of_waiting hk hlt hstep)
    · exact (step_of_taken (Nat.lt_of_not_le hk) hstep).imp_right .inr

/-! ### The destructor returns -/

/-- The end of a stopped pool gets nearer. -/
def HelpsEnd (threads : ℕ) (p : Pool τ) : Move τ → Prop
  | .wait i => i < threads ∧ p.workers i = .atWait
  | .finish i => i < threads ∧ ∃ n t, p.workers i = .running n t
  | .notifyAll => p.destructor = .notifying
  | .join => p.destructor = .joining ∧ ∀ i < threads, p.workers i = .returned
  | _ => False

/-- How far `~ThreadPool` is from returning. -/
def stage : Destructor → ℕ
  | .notCalled => 3
  | .notifying => 2
  | .joining => 1
  | .returned => 0

def endMeasure (threads : ℕ) (p : Pool τ) : ℕ :=
  2 * p.tasks.length + p.load threads + stage p.destructor

/-- Until the destructor has returned, somebody can go on. -/
theorem Inv.exists_helpsEnd (h : Inv threads p) (hstop : p.stop = true)
    (hd : p.destructor ≠ .returned) : ∃ a, Scheduled a ∧ HelpsEnd threads p a := by
  cases hdestructor : p.destructor with
  | notCalled => exact absurd hdestructor (h.stopped.mp hstop)
  | notifying => exact ⟨.notifyAll, trivial, hdestructor⟩
  | returned => exact absurd hdestructor hd
  | joining =>
      by_cases hall : ∀ i < threads, p.workers i = .returned
      · exact ⟨.join, trivial, hdestructor, hall⟩
      · push Not at hall
        obtain ⟨i, hi, hne⟩ := hall
        cases hw : p.workers i with
        | atWait => exact ⟨.wait i, trivial, hi, hw⟩
        | running n t => exact ⟨.finish i, trivial, hi, n, t, hw⟩
        | returned => exact absurd hw hne
        | asleep =>
            -- `notify_all` was called, so nobody sleeps
            rcases h.notified ⟨i, hi, hw⟩ with hno | hno <;> rw [hdestructor] at hno <;> cases hno

theorem HelpsEnd.enabled {a : Move τ} (h : HelpsEnd threads p a) :
    Enabled (Step threads) p a := by
  cases a with
  | wait i => exact enabled_wait h.1 h.2
  | finish i =>
      obtain ⟨hi, n, t, hw⟩ := h
      exact enabled_finish hi hw
  | notifyAll =>
      refine ⟨_, if_pos h, fun heq => ?_⟩
      have : Destructor.joining = p.destructor := congrArg Pool.destructor heq
      rw [show p.destructor = .notifying from h] at this
      cases this
  | join =>
      refine ⟨_, if_pos h, fun heq => ?_⟩
      have : Destructor.returned = p.destructor := congrArg Pool.destructor heq
      rw [h.1] at this
      cases this
  | enqueue task | wakeUp i | stop | notifyOne o => exact h.elim

/-- Every step of a stopped pool brings it nearer to its end, but for a notification that
finds nobody. -/
theorem Inv.step_of_stopped (h : Inv threads p) (hstop : p.stop = true) {a : Move τ}
    (hstep : Step threads p a p') : endMeasure threads p' < endMeasure threads p ∨
      (endMeasure threads p' ≤ endMeasure threads p ∧ ¬HelpsEnd threads p a ∧
        ∀ b, HelpsEnd threads p b → HelpsEnd threads p' b) := by
  unfold endMeasure
  cases a with
  | enqueue task =>
      have := (enqueue_eq_ok (step_enqueue hstep)).1
      rw [hstop] at this
      cases this
  | notifyOne o =>
      cases o with
      | some i =>
          obtain ⟨⟨-, hi, hw⟩, rfl⟩ := Option.ite_some_none_eq_some.mp hstep
          have hload := p.load_setWorker hi .atWait
          rw [hw] at hload
          simp only [weight] at hload
          refine .inl ?_
          show 2 * p.tasks.length + (p.setWorker i .atWait).load threads + stage p.destructor < _
          omega
      | none =>
          obtain ⟨-, rfl⟩ := Option.ite_some_none_eq_some.mp hstep
          exact .inr ⟨Nat.le_refl _, id, fun b hb => by cases b <;> exact hb⟩
  | wait i =>
      obtain ⟨⟨hi, hw⟩, rfl⟩ := Option.ite_some_none_eq_some.mp hstep
      refine .inl ?_
      unfold atPredicate
      split
      · rename_i task rest ht
        have hload := p.load_setWorker hi (.running p.taken.length task)
        rw [hw] at hload
        simp only [weight] at hload
        show 2 * rest.length + (p.setWorker i (.running p.taken.length task)).load threads +
          stage p.destructor < _
        rw [ht, List.length_cons]
        omega
      · rw [if_pos hstop]
        have hload := p.load_setWorker hi .returned
        rw [hw] at hload
        simp only [weight] at hload
        show 2 * p.tasks.length + (p.setWorker i .returned).load threads + stage p.destructor < _
        omega
  | wakeUp i =>
      obtain ⟨⟨hi, hw⟩, rfl⟩ := Option.ite_some_none_eq_some.mp hstep
      have hload := p.load_setWorker hi .atWait
      rw [hw] at hload
      simp only [weight] at hload
      refine .inl ?_
      show 2 * p.tasks.length + (p.setWorker i .atWait).load threads + stage p.destructor < _
      omega
  | finish i =>
      obtain ⟨n, t, hi, hw, rfl⟩ := step_finish hstep
      have hload := p.load_setWorker hi .atWait
      rw [hw] at hload
      simp only [weight] at hload
      refine .inl ?_
      show 2 * p.tasks.length + (p.setWorker i .atWait).load threads + stage p.destructor < _
      omega
  | stop =>
      obtain ⟨hd, -⟩ := Option.ite_some_none_eq_some.mp hstep
      exact absurd hd (h.stopped.mp hstop)
  | notifyAll =>
      obtain ⟨hd, rfl⟩ := Option.ite_some_none_eq_some.mp hstep
      have hload : p.wakeAll.load threads ≤ p.load threads := p.load_wakeAll
      refine .inl ?_
      show 2 * p.tasks.length + p.wakeAll.load threads + 1 < _
      rw [hd, stage]
      omega
  | join =>
      obtain ⟨⟨hd, -⟩, rfl⟩ := Option.ite_some_none_eq_some.mp hstep
      refine .inl ?_
      show 2 * p.tasks.length + p.load threads + 0 < _
      rw [hd, stage]
      omega

/-- The rule for the destructor. -/
theorem end_variant (threads : ℕ) :
    Variant (Step threads) Scheduled (fun p : Pool τ => Inv threads p ∧ p.stop = true)
      (fun p => p.destructor = .returned) (endMeasure threads) (HelpsEnd threads) where
  exists_helps := fun _ h hd => h.1.exists_helpsEnd h.2 hd
  enabled := fun _ _ _ _ hhelps => hhelps.enabled
  step := fun _ _ _ h _ hstep => .inr (h.1.step_of_stopped h.2 hstep)

/-- A pool that is stopped stays so. -/
theorem stop_kept {a : Move τ} (hstop : p.stop = true) (hstep : Step threads p a p') :
    p'.stop = true := by
  cases a with
  | enqueue task =>
      obtain ⟨-, rfl⟩ := enqueue_eq_ok (step_enqueue hstep)
      exact hstop
  | wait j =>
      obtain ⟨-, rfl⟩ := Option.ite_some_none_eq_some.mp hstep
      unfold atPredicate
      split
      · exact hstop
      · split <;> exact hstop
  | notifyOne o =>
      cases o <;> obtain ⟨-, rfl⟩ := Option.ite_some_none_eq_some.mp hstep <;> exact hstop
  | finish j =>
      obtain ⟨k, t, -, -, rfl⟩ := step_finish hstep
      exact hstop
  | stop =>
      obtain ⟨-, rfl⟩ := Option.ite_some_none_eq_some.mp hstep
      rfl
  | wakeUp i | notifyAll | join =>
      obtain ⟨-, rfl⟩ := Option.ite_some_none_eq_some.mp hstep
      exact hstop

/--
**The pool does its work.**  In a run from the constructor in which no worker, no notification
and no step of the destructor is kept waiting for ever, every task that was enqueued is finished
at last, also when the destructor is called before its turn came, and a destructor that was
called returns.
-/
theorem tasks_finish (hthreads : 0 < threads) (e : Execution (Step (τ := τ) threads))
    (hinit : e.state 0 = init τ) (hfair : e.Fair Scheduled) (n : ℕ) :
    (∀ k < (e.state n).enqueued.length, ∃ m, n ≤ m ∧ k ∈ (e.state m).finished) ∧
      ((e.state n).destructor ≠ .notCalled →
        ∃ m, n ≤ m ∧ (e.state m).destructor = .returned) := by
  have hinv : Inv threads (e.state n) := inv_of_reachable (e.reachable (.start hinit) n)
  refine ⟨fun k hk => ?_, fun hd => ?_⟩
  · exact (task_variant hthreads k).eventually
      (fun _ _ _ h hstep =>
        ⟨h.1.step hstep, Nat.lt_of_lt_of_le h.2 (record_kept hstep).2.length_le⟩)
      e hfair ⟨hinv, hk⟩
  · exact (end_variant threads).eventually
      (fun _ _ _ h hstep => ⟨h.1.step hstep, stop_kept h.2 hstep⟩) e hfair
      ⟨hinv, hinv.stopped.mpr hd⟩

/-- A move, as numbers. -/
def moveCode : Move ℕ → ℕ × ℕ
  | .enqueue task => (0, task)
  | .notifyOne none => (1, 0)
  | .notifyOne (some i) => (2, i)
  | .wait i => (3, i)
  | .wakeUp i => (4, i)
  | .finish i => (5, i)
  | .stop => (6, 0)
  | .notifyAll => (7, 0)
  | .join => (8, 0)

instance : Countable (Move ℕ) := by
  refine Function.Injective.countable (f := moveCode) fun a b h => ?_
  rcases a with task | (_ | i) | i | i | i | _ | _ | _ <;>
    rcases b with task' | (_ | j) | j | j | j | _ | _ | _ <;>
    simp [moveCode] at h ⊢ <;> exact h

/-- Two workers, and a run that is fair to everybody. -/
theorem tasks_finish_two : ∃ e : Execution (Step (τ := ℕ) 2), e.state 0 = init ℕ ∧
    ∀ n, ∀ k < (e.state n).enqueued.length, ∃ m, n ≤ m ∧ k ∈ (e.state m).finished := by
  obtain ⟨e, hinit, hfair⟩ := exists_fair (Step 2) (init ℕ)
  exact ⟨e, hinit, fun n => (tasks_finish (by decide) e hinit (hfair _) n).1⟩

end Pool

end DeepInc.ThreadPool
