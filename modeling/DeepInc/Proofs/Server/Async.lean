/-
Async mode.

With `ENABLE_ASYNC` there are no rounds, and no work for the engine.  The handler itself adds
every push to the stored buffer, and a pull is to be answered with what is in the buffer at that
time: the data of the last init push and the sum of the pushes handled since.

A pull is answered by `SendPullResponse`, in either mode, and that takes the tensor from
`updates->merged`.  In the synchronous mode an engine thread makes `merged` point at the stored
buffer when a round is complete.  In this mode nothing ever does: `merged` is as it was made,
and a `CHECK` on its pointer fails at the first pull.

So the pulls of a run are answered as they should be exactly if there are none.  The invariant
is that no key has a tensor in `merged`, and every operation of the handler keeps it because
none of them writes that field except in the branches of the synchronous mode.
-/
import DeepInc.Proofs.Server.Tables

namespace DeepInc.Server

open Outcome Transition

variable {α κ : Type}

/-! ### Requests in async mode

A run is a list of requests of any workers for any keys, in the order the handler takes them;
the engine threads have nothing to do.  What the answers should be is stated over such a list.
-/

namespace Async

/-- A request of a worker. -/
inductive Request (α : Type)
  | push (w : ℕ) (key : Key) (vals : Mem α)
  | pull (w : ℕ) (key : Key)

/-- Whether the request is a pull. -/
def Request.isPull : Request α → Bool
  | push .. => false
  | pull .. => true

/-- The key the request is about. -/
def Request.key : Request α → Key
  | push _ key _ => key
  | pull _ key => key

/-- What a push of the key holds. -/
def Request.pushOf (key : Key) : Request α → Option (Mem α)
  | push _ k vals => if k = key then some vals else none
  | pull .. => none

/-- The lengths and the types the workers agree on. -/
structure Tensors where
  len : Key → ℕ
  dtype : Key → DataType

variable [Zero α]

/-- The request, as it reaches the handler. -/
def Request.action (cfg : Config) (t : Tensors) : Request α → Action α
  | push w key vals =>
    .handle { type := ⟨.kDefaultPushPull, t.dtype key⟩, push := true, sender := w }
      { keys := [cfg.encodeKey key], vals := vals, size := t.len key, lens := [t.len key] }
  | pull w key =>
    .handle { type := ⟨.kDefaultPushPull, t.dtype key⟩, push := false, sender := w }
      { KVPairs.empty with keys := [cfg.encodeKey key] }

/-- The pushes of a key, in the order they were handled. -/
def pushes (key : Key) (reqs : List (Request α)) : List (Mem α) :=
  reqs.filterMap (Request.pushOf key)

/-- Workers send no empty push, and pull a key only after its init pushes. -/
structure WellFormed (cfg : Config) (t : Tensors) (reqs : List (Request α)) : Prop where
  keys_lt : ∀ req ∈ reqs, req.key + cfg.keyBegin < 2 ^ 64
  len_pos : ∀ key, 0 < t.len key
  initialised : ∀ before w key after, reqs = before ++ .pull w key :: after →
    cfg.numWorkers ≤ (pushes key before).length

variable [Add α]

/--
Every pull is answered, with the data of the last init push and the sum of the pushes
handled after it.
-/
def PullsAnswered (cfg : Config) (codec : Codec α κ) (t : Tensors) (reqs : List (Request α)) :
    Prop :=
  ∀ before w key after, reqs = before ++ .pull w key :: after → ∃ s s' r,
    Transition.run (State.next cfg codec) (startServer cfg) (before.map (Request.action cfg t)) =
      .ok s ∧
    s.step cfg codec ((Request.pull w key).action cfg t) = .ok (s', [.pullResponse r]) ∧
    ∀ j < t.len key / getDataTypeLength (t.dtype key),
      r.snapshot j = (pushes key before).getD (cfg.numWorkers - 1) (fun _ => 0) j +
        (((pushes key before).drop cfg.numWorkers).map fun vals => vals j).sum

end Async

/-! ### Nothing is ever published -/

/-- No pull can be answered. -/
def State.Unmerged (s : State α κ) : Prop := ∀ key, (s.updateBuf key).merged.tensor = none

namespace State

variable {cfg : Config} {s s' : State α κ}

theorem Unmerged.of_eq (h : s.Unmerged) (heq : s'.updateBuf = s.updateBuf) : s'.Unmerged := by
  intro key
  rw [heq]
  exact h key

theorem Unmerged.setRequest (h : s.Unmerged) (key : Key) (request : List KVMeta) :
    (s.setRequest key request).Unmerged := by
  intro k
  by_cases hk : k = key
  · subst hk
    simpa [State.setRequest] using h k
  · simpa [State.setRequest, hk] using h k

theorem Unmerged.collectInit (h : s.Unmerged) (cfg : Config) (key : Key) (req : KVMeta) :
    (s.collectInit cfg key req).1.Unmerged := by
  unfold State.collectInit
  simp only
  split
  · exact h.setRequest _ _
  · exact h.setRequest _ _

theorem Unmerged.write (h : s.Unmerged) (p : Ptr α) (m : Mem α) : (s.write p m).Unmerged := by
  cases p <;> exact h

theorem Unmerged.registerCompressor (h : s.Unmerged) (codec : Codec α κ) (key : Key)
    (req : KVMeta) (data : KVPairs α) :
    Ensures (s.registerCompressor cfg codec key req data) (fun r => r.1.Unmerged)
      fun _ => True := by
  unfold State.registerCompressor
  split
  · exact .ok (h.collectInit _ _ _)
  · split
    · exact .error trivial
    · simp only
      split
      · exact .error trivial
      · rename_i c _
        have h' : (s.setCompressor key c).Unmerged := h.of_eq rfl
        exact .ok (h'.collectInit _ _ _)

theorem Unmerged.getThreadID (h : s.Unmerged) (key : Key) (len : ℕ) :
    Ensures (s.getThreadID cfg key len) (fun r => r.2.Unmerged) fun _ => True := by
  refine (State.getThreadID_spec cfg s key len).mono ?_ fun _ _ => trivial
  rintro ⟨t, _⟩ ⟨_, _, rfl⟩
  exact h.of_eq rfl

variable [Zero α]

/-- A pull of a server that has published nothing fails a `CHECK`. -/
theorem Unmerged.pull (h : s.Unmerged) (hasync : cfg.syncMode = false) (key : Key) (req : KVMeta) :
    s.pull cfg key req = .error (.check (if (s.store key).tensor.isSome then .mergedTensor
      else .storedTensor)) := by
  unfold State.pull State.sendPullResponse check
  rw [h key]
  cases hs : (s.store key).tensor with
  | none => rfl
  | some tensor => simp [hasync, bind, Except.bind]

theorem Unmerged.initPush (h : s.Unmerged) (hasync : cfg.syncMode = false) (key : Key)
    (req : KVMeta) (data : KVPairs α) (len : ℕ) :
    Ensures (s.initPush cfg key req data len) (fun r => r.1.Unmerged) fun _ => True := by
  have hnote : s.noteMerged cfg key len req.type.dtype = s := if_neg (by simp [hasync])
  unfold State.initPush
  rw [hnote]
  split
  · exact .ok (h.collectInit _ _ _)
  · unfold State.initStore State.pageAlignedMalloc
    refine Ensures.bind (Ensures.bind (Ensures.bind (ensures_check fun _ => trivial)
      fun _ _ => .ok (h.of_eq rfl)) fun s₁ hs₁ => .ok (Unmerged.of_eq hs₁ rfl)) fun s₂ hs₂ => ?_
    exact .ok (Unmerged.collectInit hs₂ _ _ _)

variable [Add α]

theorem Unmerged.push (h : s.Unmerged) (hasync : cfg.syncMode = false) (key : Key) (req : KVMeta)
    (data : KVPairs α) (len : ℕ) :
    Ensures (s.push cfg key req data len) (fun r => r.1.Unmerged) fun _ => True := by
  unfold State.push
  refine Ensures.bind (h.getThreadID key len) fun r h₁ => ?_
  obtain ⟨tid, s₁⟩ := r
  have hacc : Ensures (s₁.accumulate cfg tid key req data len) (fun r => r.1.Unmerged)
      fun _ => True := by
    unfold State.accumulate
    simp only [hasync, Bool.false_eq_true, if_false]
    split
    · have h₁' : s₁.Unmerged := h₁
      exact .ok (h₁'.write (.stored key) _)
    · exact .error trivial
  refine Ensures.bind hacc fun r h₂ => ?_
  obtain ⟨s₂, issued⟩ := r
  simp only [hasync, Bool.false_eq_true, false_and, if_false, if_true]
  exact .ok (Unmerged.setRequest h₂ _ _)

theorem Unmerged.handle (h : s.Unmerged) (hasync : cfg.syncMode = false) (codec : Codec α κ)
    (req : KVMeta) (data : KVPairs α) :
    Ensures (s.handle cfg codec req data) (fun r => r.1.Unmerged) fun _ => True := by
  unfold State.handle
  split
  · refine Ensures.bind (Ensures.any _) fun _ _ => ?_
    · simp only
      split
      · exact h.registerCompressor _ _ _ _
      · split
        · split
          · refine Ensures.bind (ensures_check fun _ => trivial) fun _ _ => ?_
            split
            · exact h.initPush hasync _ _ _ _
            · exact h.push hasync _ _ _ _
          · exact .error trivial
        · rw [h.pull hasync]
          exact .error trivial
  · exact .error trivial

end State

/-! ### Runs -/

variable [Zero α] [Add α] {cfg : Config} {codec : Codec α κ}

theorem State.Unmerged.next {s : State α κ} (h : s.Unmerged) (hasync : cfg.syncMode = false)
    (codec : Codec α κ) (t : Async.Tensors) (req : Async.Request α) :
    Ensures (s.next cfg codec (req.action cfg t)) State.Unmerged fun _ => True := by
  unfold State.next
  refine Ensures.map ?_
  cases req with
  | push w key vals =>
      simp only [Async.Request.action, State.step]
      exact h.handle hasync codec _ _
  | pull w key =>
      simp only [Async.Request.action, State.step]
      exact h.handle hasync codec _ _

/-- In async mode no run publishes anything. -/
theorem unmerged_of_run (hasync : cfg.syncMode = false) (t : Async.Tensors)
    (reqs : List (Async.Request α)) {s s' : State α κ} (h : s.Unmerged)
    (hrun : Transition.run (State.next cfg codec) s (reqs.map (Async.Request.action cfg t)) = .ok s') :
    s'.Unmerged := by
  induction reqs generalizing s with
  | nil =>
      obtain rfl := Except.ok.inj hrun
      exact h
  | cons req reqs ih =>
      rw [List.map_cons, Transition.run_cons] at hrun
      cases hnext : s.next cfg codec (req.action cfg t) with
      | error f =>
          rw [hnext] at hrun
          cases hrun
      | ok s₁ =>
          rw [hnext] at hrun
          refine ih ?_ hrun
          have hensures := h.next hasync codec t req
          rw [hnext] at hensures
          exact hensures.of_ok

/-- A pull of a server that has published nothing is not answered. -/
theorem step_pull (hasync : cfg.syncMode = false) (t : Async.Tensors) (w : ℕ) {key : Key}
    (hkey : key + cfg.keyBegin < 2 ^ 64) {s : State α κ} (h : s.Unmerged) :
    s.step cfg codec ((Async.Request.pull w key).action cfg t) =
      .error (.check (if (s.store key).tensor.isSome then .mergedTensor else .storedTensor)) := by
  have hpull := State.Unmerged.pull h hasync key
    { type := ⟨.kDefaultPushPull, t.dtype key⟩, push := false, sender := w }
  rw [← hpull]
  simp [Async.Request.action, State.step, State.handle, State.logChecks,
    cfg.decodeKey_encodeKey hkey, bind, Except.bind]

/--
**In async mode no pull is ever answered.** The pulls of a run are answered with the initial
value and the sum of the pushes before them if and only if there are none.

A run is any sequence of requests that workers may send, of any number of workers and keys.
-/
theorem async_pullsAnswered_iff (codec : Codec α κ) (hasync : cfg.syncMode = false)
    (t : Async.Tensors) {reqs : List (Async.Request α)} (hwf : Async.WellFormed cfg t reqs) :
    Async.PullsAnswered cfg codec t reqs ↔ ∀ req ∈ reqs, req.isPull = false := by
  constructor
  · intro h req hreq
    cases req with
    | push w key vals => rfl
    | pull w key =>
        obtain ⟨before, after, rfl⟩ := List.append_of_mem hreq
        obtain ⟨s, s', r, hrun, hstep, -⟩ := h before w key after rfl
        have hunmerged := unmerged_of_run hasync t before (fun _ => rfl) hrun
        have hkey : key + cfg.keyBegin < 2 ^ 64 := hwf.keys_lt _ hreq
        rw [step_pull hasync t w hkey hunmerged] at hstep
        cases hstep
  · intro h before w key after heq
    have := h (.pull w key) (by rw [heq]; simp)
    cases this

/-! ### The first pull of one worker -/

/-- One worker, in async mode. -/
def asyncConfig : Config :=
  initGlobalEnv (fun name => if name = "ENABLE_ASYNC" then some 1 else none) 1 0

/-- Tensors of one element. -/
def oneElement : Async.Tensors := { len := fun _ => 4, dtype := fun _ => .float32 }

/-- Pushes alone are no trouble. -/
theorem async_pullsAnswered_pushes :
    Async.PullsAnswered asyncConfig noCompressor oneElement
      [.push 0 0 fun _ => 5, .push 0 0 fun _ => 1] := by
  refine (async_pullsAnswered_iff noCompressor (by decide) oneElement
    ⟨?_, fun _ => Nat.succ_pos 3, ?_⟩).mpr ?_
  · intro req hreq
    simp only [List.mem_cons, List.not_mem_nil, or_false] at hreq
    rcases hreq with rfl | rfl <;> decide
  · intro before w key after heq
    have hmem : Async.Request.pull w key ∈ before ++ Async.Request.pull w key :: after := by simp
    rw [← heq] at hmem
    simp at hmem
  · simp [Async.Request.isPull]

/-- The worker initialises a key, and its first pull ends the server. -/
theorem async_first_pull_fails :
    ¬∀ (cfg : Config) (t : Async.Tensors) (reqs : List (Async.Request ℤ)), cfg.syncMode = false →
      Async.WellFormed cfg t reqs → Async.PullsAnswered cfg noCompressor t reqs := by
  intro h
  have hwf : Async.WellFormed asyncConfig oneElement
      ([.push 0 0 fun _ => 5, .pull 0 0] : List (Async.Request ℤ)) := by
    refine ⟨?_, fun _ => Nat.succ_pos 3, ?_⟩
    · intro req hreq
      simp only [List.mem_cons, List.not_mem_nil, or_false] at hreq
      rcases hreq with rfl | rfl <;> decide
    · intro before w key after heq
      cases before with
      | nil => cases heq
      | cons req before =>
          obtain ⟨rfl, htail⟩ := List.cons.inj heq
          cases before with
          | nil =>
              obtain ⟨hpull, -⟩ := List.cons.inj htail
              obtain ⟨-, rfl⟩ := Async.Request.pull.inj hpull
              decide
          | cons req before => simp at htail
  obtain ⟨s, s', r, hrun, hstep, -⟩ :=
    h asyncConfig oneElement _ (by decide) hwf [.push 0 0 fun _ => 5] 0 0 [] rfl
  rw [step_pull (by decide) oneElement 0 (by decide)
    (unmerged_of_run (by decide) oneElement _ (fun _ => rfl) hrun)] at hstep
  cases hstep

end DeepInc.Server
