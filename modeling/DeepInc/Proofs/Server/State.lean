/-
What the operations on the state leave alone.

The state of the server is one record of tables, and an operation writes a few of them.  The
lemmas here say which, and what is the same after it, so that no later proof unfolds an
operation only to find that it does not matter.

`waiting i` is what thread `i` still has to execute: the message in hand, then its queue.  A
push adds to it, a pop rearranges it, and an execution takes its first message; everything else
in the state the three leave as it is.  With scheduling off, a push adds at the end and a pop
keeps the order.

The checks of the handler and of the tables either pass and change nothing, or end the run.
-/
import DeepInc.Lib.Outcome
import DeepInc.Proofs.Server.Queue
import DeepInc.Server.Slot

namespace DeepInc.Server

open Outcome

variable {α κ : Type}

/-! ### Checks -/

theorem ensures_check {p : Prop} [Decidable p] {c : Check} {F : Fault → Prop}
    (h : ¬p → F (.check c)) : Ensures (check p c) (fun _ => p) F := by
  unfold check
  split
  · exact .ok ‹_›
  · exact .error (h ‹_›)

theorem check_ok {p : Prop} [Decidable p] {c : Check} (h : p) : check p c = .ok () := if_pos h

theorem ensures_inRange {v : VecName} {size i : ℕ} {F : Fault → Prop}
    (h : size ≤ i → F (.outOfRange v i)) : Ensures (inRange v size i) (fun _ => i < size) F := by
  unfold inRange
  split
  · exact .ok ‹_›
  · exact .error (h (Nat.le_of_not_lt ‹_›))

theorem Config.decodeKey_encodeKey (cfg : Config) {key : Key} (h : key + cfg.keyBegin < 2 ^ 64) :
    cfg.decodeKey (cfg.encodeKey key) = key := by
  have hmod : ∀ k b : ℕ, k + b < 2 ^ 64 → ((k + b) % 2 ^ 64 + (2 ^ 64 - b)) % 2 ^ 64 = k := by
    omega
  exact hmod key cfg.keyBegin h

namespace State

theorem ensures_index (s : State α κ) (t : ℕ) {F : Fault → Prop} (vs : List VecName)
    (h : ∀ v ∈ vs, s.tableSize v ≤ t → F (.outOfRange v t)) :
    Ensures (s.index t vs) (fun _ => ∀ v ∈ vs, t < s.tableSize v) F := by
  induction vs with
  | nil => exact .ok (by simp)
  | cons v rest ih =>
      unfold index
      refine Ensures.bind (ensures_inRange (h v (by simp))) fun _ hv => ?_
      refine (ih fun w hw => h w (by simp [hw])).mono (fun _ hrest w hw => ?_) fun _ he => he
      rcases List.mem_cons.mp hw with rfl | hw
      · exact hv
      · exact hrest w hw

/-- Assigning a thread only writes its tables, and only fails on a `CHECK`. -/
theorem getThreadID_spec (cfg : Config) (s : State α κ) (key : Key) (len : ℕ) :
    Ensures (s.getThreadID cfg key len)
      (fun r => ∃ accLoad hashCache, r.2 = { s with accLoad := accLoad, hashCache := hashCache })
      fun e => ∃ c, e = .check c := by
  unfold getThreadID
  split
  · exact .ok ⟨_, _, rfl⟩
  · split
    · exact .error ⟨_, rfl⟩
    · refine Ensures.bind (ensures_check fun _ => ⟨_, rfl⟩) fun _ _ => ?_
      refine Ensures.bind (ensures_check fun _ => ⟨_, rfl⟩) fun _ _ => ?_
      split
      · exact .error ⟨_, rfl⟩
      · exact Ensures.bind (ensures_check fun _ => ⟨_, rfl⟩) fun _ _ => .ok ⟨_, _, rfl⟩

/-! ### What a thread still has to execute

A message that is taken out of the queue is still in `waiting`, since it is in hand then.  So
only executions shorten it.
-/

theorem waiting_pushMessage_self (s : State α κ) (tid : ℕ) (m : EngineMessage α) :
    ((s.pushMessage tid m).waiting tid).Perm (s.waiting tid ++ [m]) := by
  simp only [waiting, pushMessage, Vec.set_get_self, List.append_assoc]
  exact (PriorityQueue.push_perm _ m).append_left _

theorem waiting_pushMessage_fifo {s : State α κ} {tid : ℕ}
    (h : (s.engineQueues.get tid).enableSchedule = false) (m : EngineMessage α) :
    (s.pushMessage tid m).waiting tid = s.waiting tid ++ [m] := by
  simp only [waiting, pushMessage, Vec.set_get_self, List.append_assoc,
    PriorityQueue.push_fifo h]

theorem waiting_pushMessage_ne (s : State α κ) {tid i : ℕ} (h : i ≠ tid) (m : EngineMessage α) :
    (s.pushMessage tid m).waiting i = s.waiting i := by
  simp [waiting, pushMessage, h]

/-- What a pop does, when it does anything. -/
theorem pop_cases (s : State α κ) (i : ℕ) :
    s.pop i = s ∨ ∃ m q, s.hand i = none ∧
      (s.engineQueues.get i).waitAndPop = some (m, q) ∧
      s.pop i = { s with
        engineQueues := s.engineQueues.set i q
        hand := Function.update s.hand i (some m) } := by
  unfold pop
  cases hh : s.hand i with
  | some m => exact .inl rfl
  | none =>
      by_cases hi : i < s.engineQueues.size
      · cases hp : (s.engineQueues.get i).waitAndPop with
        | none => simp [hi]
        | some r => exact .inr ⟨r.1, r.2, rfl, rfl, by simp [hi]⟩
      · simp [hi]

theorem waiting_pop (s : State α κ) (i j : ℕ) : ((s.pop i).waiting j).Perm (s.waiting j) := by
  rcases s.pop_cases i with h | ⟨m, q, hh, hp, h⟩
  · rw [h]
  · rw [h]
    by_cases hj : j = i
    · subst hj
      simpa [waiting, hh] using (PriorityQueue.waitAndPop_spec hp).1.symm
    · simp [waiting, hj]

theorem waiting_pop_fifo {s : State α κ} {i : ℕ}
    (h : (s.engineQueues.get i).enableSchedule = false) (j : ℕ) :
    (s.pop i).waiting j = s.waiting j := by
  rcases s.pop_cases i with h' | ⟨m, q, hh, hp, h'⟩
  · rw [h']
  · rw [h']
    by_cases hj : j = i
    · subst hj
      simpa [waiting, hh] using ((PriorityQueue.waitAndPop_spec hp).2.2.2.1 h).symm
    · simp [waiting, hj]

end State

end DeepInc.Server
