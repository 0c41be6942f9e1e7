/-
Which accesses to the per-thread tables are in range.

A server keeps the windows of its keys in five vectors, `flag_mu_`, `is_push_finished_`,
`q_pull_reqmeta_`, `seen_sender_` and `pull_cnt_`, each indexed by an engine thread.  Nothing
between `start_server` and the first request sizes them, and nothing afterwards does either, so
that they stay empty.

An index of an empty vector is out of range whatever it is.  So a step indexes the tables out of
range exactly when it indexes them at all: when an engine thread executes an `ALL_RECV`, and
when the handler takes a pull of a stored key that has an engine thread.  A pull of a key that
is not stored, or that has no thread, fails a `CHECK` before.

A run stays in range if and only if no step of it is of this kind.  The invariant is that the
sizes are zero and that the messages in the queues have the pointers they need; the second is
there because a message without them would end the thread before it gets to the tables.

The rest of the development is about a server whose tables are resized for its threads.
-/
import DeepInc.Lib.System
import DeepInc.Proofs.Server.State
import Mathlib.Algebra.Ring.Int.Defs

namespace DeepInc.Server

open Outcome

variable {α κ : Type}

/-- The vectors that are indexed by an engine thread and hold its pull windows. -/
def perThreadTables : List VecName :=
  [.flagMu, .isPushFinished, .qPullReqmeta, .seenSender, .pullCnt]

/-- No step of the run indexes a per-thread table out of range. -/
def TablesInRange [Zero α] [Add α] (cfg : Config) (codec : Codec α κ) (s : State α κ)
    (as : List (Action α)) : Prop :=
  ∀ v ∈ perThreadTables, ∀ i,
    Transition.run (State.next cfg codec) s as ≠ .error (.outOfRange v i)

/-- The step is one whose code uses the tables. -/
def UsesTables (cfg : Config) (s : State α κ) : Action α → Prop
  | .handle req data => ∃ psKey, data.keys = [psKey] ∧
      req.type.requestType ≠ .kCompressedPushPull ∧ req.push = false ∧
      (s.store (cfg.decodeKey psKey)).tensor.isSome = true ∧
      cfg.isEngineBlocking = false ∧ cfg.syncMode = true ∧
      (s.hashCache (cfg.decodeKey psKey)).isSome = true
  | .pop _ => False
  | .execute i => ∃ m, s.hand i = some m ∧ m.ops = .allRecv

/-! ### What a step keeps

`Frame` is the invariant as a relation between two states.  It is closed under composition, so
that a function is as good as the functions it calls.
-/

/-- A message an engine thread does not reject for a null pointer. -/
def HasPointers (m : EngineMessage α) : Prop :=
  m.dst.isSome = true ∧ (m.ops = .allRecv → m.src.isSome = true)

/-- No table is resized, and only messages with their pointers are queued. -/
structure Frame (s s' : State α κ) : Prop where
  tables : ∀ v, s'.tableSize v = s.tableSize v
  waiting : ∀ i, ∀ m ∈ s'.waiting i, m ∈ s.waiting i ∨ HasPointers m

namespace Frame

variable {s s' s'' : State α κ}

theorem refl (s : State α κ) : Frame s s := ⟨fun _ => rfl, fun _ _ h => .inl h⟩

theorem trans (h : Frame s s') (h' : Frame s' s'') : Frame s s'' := by
  refine ⟨fun v => (h'.tables v).trans (h.tables v), fun i m hm => ?_⟩
  rcases h'.waiting i m hm with hm | hm
  · exact h.waiting i m hm
  · exact .inr hm

/-- A write to anything but the tables' sizes and the queues. -/
theorem of_eq (htables : ∀ v, s'.tableSize v = s.tableSize v)
    (hwaiting : ∀ i, s'.waiting i = s.waiting i) : Frame s s' :=
  ⟨htables, fun i m hm => .inl (by rwa [hwaiting] at hm)⟩

theorem setRequest (s : State α κ) (key : Key) (request : List KVMeta) :
    Frame s (s.setRequest key request) := of_eq (by rintro ⟨⟩ <;> rfl) fun _ => rfl

theorem setMerged (s : State α κ) (key : Key) (merged : MergedArray α) :
    Frame s (s.setMerged key merged) := of_eq (by rintro ⟨⟩ <;> rfl) fun _ => rfl

theorem setCompressor (s : State α κ) (key : Key) (c : Compressor α κ) :
    Frame s (s.setCompressor key c) := of_eq (by rintro ⟨⟩ <;> rfl) fun _ => rfl

theorem setWindow (s : State α κ) (t : ℕ) (key : Key) (w : Window) :
    Frame s (s.setWindow t key w) := of_eq (by rintro ⟨⟩ <;> rfl) fun _ => rfl

theorem write (s : State α κ) (p : Ptr α) (m : Mem α) : Frame s (s.write p m) := by
  cases p with
  | stored key => exact of_eq (by rintro ⟨⟩ <;> rfl) fun _ => rfl
  | buf key => exact of_eq (by rintro ⟨⟩ <;> rfl) fun _ => rfl
  | vals data => exact refl s

theorem collectInit (cfg : Config) (s : State α κ) (key : Key) (req : KVMeta) :
    Frame s (s.collectInit cfg key req).1 := by
  unfold State.collectInit
  simp only
  split
  · exact setRequest ..
  · exact setRequest ..

theorem pushMessage (s : State α κ) (tid : ℕ) {m : EngineMessage α} (hm : HasPointers m) :
    Frame s (s.pushMessage tid m) := by
  refine ⟨by rintro ⟨⟩ <;> rfl, fun i m' hm' => ?_⟩
  by_cases hi : i = tid
  · subst hi
    rcases List.mem_append.mp ((s.waiting_pushMessage_self i m).subset hm') with h | h
    · exact .inl h
    · rw [List.mem_singleton] at h
      exact .inr (h ▸ hm)
  · rw [State.waiting_pushMessage_ne s hi] at hm'
    exact .inl hm'

theorem clearCounter (s : State α κ) (tid : ℕ) (key : Key) :
    Frame s { s with
      engineQueues := s.engineQueues.set tid ((s.engineQueues.get tid).clearCounter key) } := by
  refine of_eq (by rintro ⟨⟩ <;> rfl) fun i => ?_
  by_cases hi : i = tid
  · subst hi
    simp [State.waiting]
  · simp [State.waiting, hi]

theorem pop (s : State α κ) (i : ℕ) : Frame s (s.pop i) := by
  refine ⟨fun v => ?_, fun j m hm => .inl ((s.waiting_pop i j).subset hm)⟩
  rcases s.pop_cases i with h | ⟨m, q, -, -, h⟩
  · rw [h]
  · rw [h]
    cases v <;> rfl

end Frame

/-! ### Steps that do not use the tables -/

/-- The fault, if any, is not an index of a per-thread table. -/
def OffTables (f : Fault) : Prop := ∀ v ∈ perThreadTables, ∀ i, f ≠ .outOfRange v i

@[simp] theorem offTables_check (c : Check) : OffTables (.check c) := by simp [OffTables]

@[simp] theorem offTables_nullPointer : OffTables .nullPointer := by simp [OffTables]

@[simp] theorem offTables_lens (i : ℕ) : OffTables (.outOfRange .reqDataLens i) := by
  simp [OffTables, perThreadTables]

@[simp] theorem offTables_queues (i : ℕ) : OffTables (.outOfRange .engineQueues i) := by
  simp [OffTables, perThreadTables]

namespace State

theorem getThreadID_frame (cfg : Config) (s : State α κ) (key : Key) (len : ℕ) :
    Ensures (s.getThreadID cfg key len) (fun r => Frame s r.2) OffTables := by
  refine (getThreadID_spec cfg s key len).mono ?_ ?_
  · rintro ⟨t, _⟩ ⟨_, _, rfl⟩
    exact Frame.of_eq (by rintro ⟨⟩ <;> rfl) fun _ => rfl
  · rintro _ ⟨c, rfl⟩
    exact offTables_check c

theorem noteMerged_frame (cfg : Config) (s : State α κ) (key : Key) (len : ℕ)
    (dtype : DataType) : Frame s (s.noteMerged cfg key len dtype) := by
  unfold noteMerged
  split
  · exact Frame.setMerged ..
  · exact Frame.refl s

theorem logChecks_offTables (cfg : Config) (req : KVMeta) (data : KVPairs α) :
    Ensures (logChecks cfg req data) (fun _ => True) OffTables := by
  unfold logChecks
  split
  · split
    · exact (ensures_check (by simp)).mono (fun _ _ => trivial) fun _ h => h
    · exact .error (by simp)
  · exact .ok trivial

theorem enqueue_frame (s : State α κ) (tid : ℕ) {m : EngineMessage α} (hm : HasPointers m) :
    Ensures (s.enqueue tid m) (fun s' => Frame s s') OffTables := by
  unfold enqueue
  exact Ensures.bind (ensures_inRange (by simp)) fun _ _ => .ok (Frame.pushMessage s tid hm)

theorem registerCompressor_frame (cfg : Config) (codec : Codec α κ) (s : State α κ) (key : Key)
    (req : KVMeta) (data : KVPairs α) :
    Ensures (s.registerCompressor cfg codec key req data) (fun r => Frame s r.1) OffTables := by
  unfold registerCompressor
  split
  · exact .ok (Frame.collectInit ..)
  · split
    · exact .error (by simp)
    · simp only
      split
      · exact .error (by simp)
      · exact .ok ((Frame.setCompressor ..).trans (Frame.collectInit ..))

theorem pageAlignedMalloc_frame (s : State α κ) (size : ℕ) :
    Ensures (s.pageAlignedMalloc size) (fun s' => Frame s s') OffTables := by
  unfold pageAlignedMalloc
  refine Ensures.bind (ensures_check (by simp)) fun _ _ => ?_
  exact .ok (Frame.of_eq (by rintro ⟨⟩ <;> rfl) fun _ => rfl)

theorem waiting_execute {s : State α κ} {i : ℕ} {m : EngineMessage α} (h : s.hand i = some m) :
    s.waiting i = m :: ({ s with hand := Function.update s.hand i none } : State α κ).waiting i := by
  simp [waiting, h]

theorem dropHand_frame (s : State α κ) (i : ℕ) :
    Frame s { s with hand := Function.update s.hand i none } := by
  refine ⟨by rintro ⟨⟩ <;> rfl, fun j m hm => .inl ?_⟩
  by_cases hj : j = i
  · subst hj
    cases hh : s.hand j with
    | none => simpa [waiting, hh] using hm
    | some m' => rw [waiting_execute hh]; exact List.mem_cons_of_mem _ hm
  · simpa [waiting, hj] using hm

variable [Zero α]

theorem sendPullResponse_offTables (s : State α κ) (key : Key) (req : KVMeta) :
    Ensures (s.sendPullResponse key req) (fun _ => True) OffTables := by
  unfold sendPullResponse
  split
  · exact .error (by simp)
  · exact .ok trivial

theorem initStore_frame (s : State α κ) (key : Key) (data : KVPairs α) (len : ℕ)
    (dtype : DataType) :
    Ensures (s.initStore key data len dtype) (fun s' => Frame s s') OffTables := by
  unfold initStore
  refine Ensures.bind (s.pageAlignedMalloc_frame _) fun s' hs' => .ok (Frame.trans hs' ?_)
  exact Frame.of_eq (by rintro ⟨⟩ <;> rfl) fun _ => rfl

theorem initPush_frame (cfg : Config) (s : State α κ) (key : Key) (req : KVMeta)
    (data : KVPairs α) (len : ℕ) :
    Ensures (s.initPush cfg key req data len) (fun r => Frame s r.1) OffTables := by
  unfold initPush
  have hmerged := s.noteMerged_frame cfg key len req.type.dtype
  split
  · exact .ok (hmerged.trans (Frame.collectInit ..))
  · exact Ensures.bind (initStore_frame _ key data len _)
      fun s' hs' => .ok ((hmerged.trans hs').trans (Frame.collectInit ..))

theorem completeRound_frame (cfg : Config) (s : State α κ) (tid : ℕ) (key : Key) (req : KVMeta)
    (len : ℕ) :
    Ensures (s.completeRound cfg tid key req len) (fun r => Frame s r.1) OffTables := by
  unfold completeRound
  split
  · split
    · exact .error (by simp)
    · exact .ok (Frame.write s (.stored key) _)
  · exact Ensures.bind (s.enqueue_frame tid ⟨rfl, fun _ => rfl⟩)
      fun _ h => .ok (Frame.trans h (Frame.clearCounter ..))

/-- A pull indexes the tables only where `UsesTables` says so. -/
theorem pull_frame (cfg : Config) (s : State α κ) (key : Key) (req : KVMeta) :
    Ensures (s.pull cfg key req) (fun r => Frame s r.1) fun f => OffTables f ∨
      ((s.store key).tensor.isSome = true ∧ cfg.isEngineBlocking = false ∧
        cfg.syncMode = true ∧ (s.hashCache key).isSome = true) := by
  unfold pull
  refine Ensures.bind (ensures_check (by simp)) fun _ hstored => ?_
  have hsend := (s.sendPullResponse_offTables key req).mono (fun _ h => h) fun _ h =>
    Or.inl (b := (s.store key).tensor.isSome = true ∧ cfg.isEngineBlocking = false ∧
        cfg.syncMode = true ∧ (s.hashCache key).isSome = true) h
  split
  · exact Ensures.bind hsend fun _ _ => .ok (Frame.refl s)
  · rename_i hmode
    simp only [not_or, Bool.not_eq_true, Bool.not_eq_false] at hmode
    cases hhash : s.hashCache key with
    | none =>
        have hid : s.getThreadID cfg key 0 = .error (.check .hashCacheFound) := by
          simp [getThreadID, hhash]
        rw [hid]
        exact .error (.inl (by simp))
    | some t =>
        have hid : s.getThreadID cfg key 0 = .ok (t, s) := by simp [getThreadID, hhash]
        rw [hid]
        have huse : (s.store key).tensor.isSome = true ∧ cfg.isEngineBlocking = false ∧
            cfg.syncMode = true ∧ (some t).isSome = true := ⟨hstored, hmode.1, hmode.2, rfl⟩
        rw [hhash] at hsend
        show Ensures (s.index t _ >>= _) _ _
        refine Ensures.bind (s.ensures_index t _ fun _ _ _ => .inr huse) fun _ _ => ?_
        simp only
        split
        · refine Ensures.bind hsend fun _ _ => ?_
          refine Ensures.bind (s.ensures_index t _ fun _ _ _ => .inr huse) fun _ _ => ?_
          exact .ok (Frame.setWindow ..)
        · refine Ensures.bind (s.ensures_index t _ fun _ _ _ => .inr huse) fun _ _ => ?_
          exact .ok (Frame.setWindow ..)

theorem convert_frame (codec : Codec α κ) (s : State α κ) (m : EngineMessage α) (src : Ptr α) :
    Ensures (s.convert codec m src) (fun r => Frame s r.1) OffTables := by
  unfold convert
  split
  · split
    · exact .ok (((Frame.setCompressor ..).trans (Frame.write ..)).trans (Frame.setMerged ..))
    · split
      · exact .error (by simp)
      · exact Ensures.bind (ensures_check (by simp)) fun _ _ => .ok (Frame.setCompressor ..)
  · split
    · exact .ok (Frame.setMerged ..)
    · exact .ok (Frame.refl s)

variable [Add α]

theorem accumulate_frame (cfg : Config) (s : State α κ) (tid : ℕ) (key : Key) (req : KVMeta)
    (data : KVPairs α) (len : ℕ) :
    Ensures (s.accumulate cfg tid key req data len) (fun r => Frame s r.1) OffTables := by
  unfold accumulate
  split
  · split
    · exact Ensures.bind (s.enqueue_frame tid ⟨rfl, by simp [dataMessage]⟩) fun _ h => .ok h
    · exact .ok (Frame.write s (.stored key) _)
  · refine Ensures.bind (ensures_check (by simp)) fun _ _ => ?_
    split
    · simp only
      split
      · exact .error (by simp)
      · exact .ok (Frame.write ..)
    · exact Ensures.bind (s.enqueue_frame tid ⟨rfl, by simp [dataMessage]⟩) fun _ h => .ok h

theorem push_frame (cfg : Config) (s : State α κ) (key : Key) (req : KVMeta) (data : KVPairs α)
    (len : ℕ) : Ensures (s.push cfg key req data len) (fun r => Frame s r.1) OffTables := by
  unfold push
  refine Ensures.bind (s.getThreadID_frame cfg key len) fun ⟨tid, s₁⟩ h₁ => ?_
  refine Ensures.bind (s₁.accumulate_frame cfg tid key req data len) fun ⟨s₂, issued⟩ h₂ => ?_
  have h : Frame s s₂ := Frame.trans h₁ h₂
  simp only
  split
  · exact Ensures.bind (s₂.completeRound_frame cfg tid key req len)
      fun _ hc => .ok ((h.trans hc).trans (Frame.setRequest ..))
  · split
    · exact .ok (h.trans (Frame.setRequest ..))
    · exact .ok (h.trans (Frame.setRequest ..))

theorem handle_frame (cfg : Config) (codec : Codec α κ) (s : State α κ) (req : KVMeta)
    (data : KVPairs α) :
    Ensures (s.handle cfg codec req data) (fun r => Frame s r.1)
      fun f => OffTables f ∨ UsesTables cfg s (.handle req data) := by
  unfold handle
  split
  · rename_i psKey hkeys
    refine Ensures.bind ((logChecks_offTables cfg req data).mono (fun _ h => h)
      fun _ h => .inl h) fun _ _ => ?_
    simp only
    split
    · exact (s.registerCompressor_frame cfg codec _ req data).mono (fun _ h => h)
        fun _ h => .inl h
    · rename_i htype
      split
      · split
        · refine Ensures.bind (ensures_check (by simp)) fun _ _ => ?_
          split
          · exact (s.initPush_frame cfg _ req data _).mono (fun _ h => h) fun _ h => .inl h
          · exact (s.push_frame cfg _ req data _).mono (fun _ h => h) fun _ h => .inl h
        · exact .error (by simp)
      · rename_i hpush
        refine (s.pull_frame cfg _ req).mono (fun _ h => h) fun _ h => ?_
        rcases h with h | h
        · exact .inl h
        · exact .inr ⟨psKey, hkeys, htype, by simpa using hpush, h⟩
  · exact .error (by simp)

/-- A message that is not an `ALL_RECV` is executed without the tables. -/
theorem execute_frame (cfg : Config) (codec : Codec α κ) (s : State α κ) (i : ℕ)
    (h : ¬UsesTables cfg s (.execute i)) :
    Ensures (s.execute cfg codec i) (fun r => Frame s r.1) OffTables := by
  unfold execute
  split
  · exact .ok (Frame.refl s)
  · rename_i m hm
    have hops : m.ops ≠ .allRecv := fun hc => h ⟨m, hm, hc⟩
    split
    · exact .ok (Frame.refl s)
    · simp only
      split
      · exact .error (by simp)
      · exact .error (by simp)
      · refine Ensures.bind (convert_frame codec _ m _) fun r hr => ?_
        have hr' := (s.dropHand_frame i).trans hr
        split
        · exact .ok (hr'.trans (Frame.write ..))
        · exact .ok (hr'.trans (Frame.write ..))
        · exact absurd ‹_› hops
        · exact .ok hr'

/-! ### Steps that do -/

/-- A step that uses the tables of a server without any is out of range at `flag_mu_`. -/
theorem next_of_usesTables {cfg : Config} {codec : Codec α κ} {s : State α κ} {a : Action α}
    (hsize : ∀ v ∈ perThreadTables, s.tableSize v = 0)
    (hptr : ∀ i, ∀ m ∈ s.waiting i, HasPointers m) (h : UsesTables cfg s a) :
    ∃ t, s.next cfg codec a = .error (.outOfRange .flagMu t) := by
  cases a with
  | pop i => exact h.elim
  | handle req data =>
      obtain ⟨psKey, hkeys, htype, hpush, hstored, hblock, hsync, hhash⟩ := h
      obtain ⟨t, ht⟩ := Option.isSome_iff_exists.mp hhash
      have hid : s.getThreadID cfg (cfg.decodeKey psKey) 0 = .ok (t, s) := by
        simp [getThreadID, ht]
      have hindex : ∀ vs, s.index t (.flagMu :: vs) = .error (.outOfRange .flagMu t) := by
        intro vs
        simp [index, inRange, hsize .flagMu (by simp [perThreadTables]), Except.bind]
      have hpull : s.pull cfg (cfg.decodeKey psKey) req = .error (.outOfRange .flagMu t) := by
        unfold pull
        rw [check_ok hstored, hid]
        simp [hblock, hsync, Window.presentTables, hindex, bind, Except.bind]
      refine ⟨t, ?_⟩
      show (s.handle cfg codec req data).map _ = _
      unfold handle
      rw [hkeys]
      simp [logChecks, hpush, htype, hpull, bind, Except.bind, Except.map]
  | execute i =>
      obtain ⟨m, hm, hops⟩ := h
      have hmem : m ∈ s.waiting i := by simp [waiting, hm]
      obtain ⟨dst, hdst⟩ := Option.isSome_iff_exists.mp (hptr i m hmem).1
      obtain ⟨src, hsrc⟩ := Option.isSome_iff_exists.mp ((hptr i m hmem).2 hops)
      obtain ⟨r, hr, hframe⟩ : ∃ r, ({ s with hand := Function.update s.hand i none } :
          State α κ).convert codec m src = .ok r ∧ Frame s r.1 := by
        have := convert_frame codec ({ s with hand := Function.update s.hand i none }) m src
        cases hc : ({ s with hand := Function.update s.hand i none } : State α κ).convert
            codec m src with
        | ok r => rw [hc] at this; exact ⟨r, rfl, (s.dropHand_frame i).trans this.of_ok⟩
        | error e => simp [convert, hops] at hc; split at hc <;> simp at hc
      have hindex : ∀ vs, r.1.index i (.flagMu :: vs) = .error (.outOfRange .flagMu i) := by
        intro vs
        have := (hframe.tables .flagMu).trans (hsize .flagMu (by simp [perThreadTables]))
        simp [index, inRange, this, Except.bind]
      refine ⟨i, ?_⟩
      show (s.execute cfg codec i).map _ = _
      unfold execute
      simp [hm, hops, hdst, hsrc, hr, openWindow, Window.presentTables, hindex, bind,
        Except.bind, Except.map]

/-- A step that does not use the tables keeps what the next steps rely on. -/
theorem next_of_not_usesTables {cfg : Config} {codec : Codec α κ} {s : State α κ} {a : Action α}
    (h : ¬UsesTables cfg s a) : Ensures (s.next cfg codec a) (fun s' => Frame s s') OffTables := by
  unfold next
  apply Ensures.map
  cases a with
  | handle req data =>
      refine (s.handle_frame cfg codec req data).mono (fun _ h => h) fun f hf => ?_
      exact hf.resolve_right h
  | pop i => exact .ok (Frame.pop s i)
  | execute i => exact s.execute_frame cfg codec i h

end State

/-! ### Runs

Both directions are one induction on the run, from the left.  A step that uses the tables ends
the run, so that there is no later step to speak of.
-/

variable [Zero α] [Add α]

/-- The runs whose steps all leave the tables alone are the ones that stay in range. -/
theorem tablesInRange_of_unsized {cfg : Config} {codec : Codec α κ} (as : List (Action α)) :
    ∀ s : State α κ, (∀ v ∈ perThreadTables, s.tableSize v = 0) →
      (∀ i, ∀ m ∈ s.waiting i, HasPointers m) →
      (TablesInRange cfg codec s as ↔ ∀ before a after s', as = before ++ a :: after →
        Transition.run (State.next cfg codec) s before = .ok s' → ¬UsesTables cfg s' a) := by
  induction as with
  | nil =>
      intro s _ _
      simp [TablesInRange]
  | cons a as ih =>
      intro s hsize hptr
      by_cases huse : UsesTables cfg s a
      · obtain ⟨t, ht⟩ : ∃ t, s.next cfg codec a = .error (.outOfRange .flagMu t) :=
          State.next_of_usesTables hsize hptr huse
        refine iff_of_false (fun h => h .flagMu (by simp [perThreadTables]) t ?_) fun h =>
          h [] a as s rfl rfl huse
        rw [Transition.run_cons, ht]
        rfl
      · have hnext : Ensures (s.next cfg codec a) (fun s' => Frame s s') OffTables :=
          State.next_of_not_usesTables huse
        cases hs : s.next cfg codec a with
        | error f =>
            rw [hs] at hnext
            refine iff_of_true (fun v hv i h => ?_) fun before b after s' heq hrun => ?_
            · rw [Transition.run_cons, hs] at h
              exact hnext.of_error v hv i (Except.error.inj h)
            · cases before with
              | nil =>
                  obtain ⟨rfl, rfl⟩ := List.cons.inj heq
                  obtain rfl := Except.ok.inj hrun
                  exact huse
              | cons c before =>
                  obtain ⟨rfl, -⟩ := List.cons.inj heq
                  rw [Transition.run_cons, hs] at hrun
                  cases hrun
        | ok s₁ =>
            rw [hs] at hnext
            have hframe : Frame s s₁ := hnext.of_ok
            have ih' := ih s₁ (fun v hv => (hframe.tables v).trans (hsize v hv)) fun i m hm =>
              (hframe.waiting i m hm).elim (hptr i m) id
            have hrun : TablesInRange cfg codec s (a :: as) ↔ TablesInRange cfg codec s₁ as := by
              simp [TablesInRange, Transition.run_cons, hs, Except.bind]
            rw [hrun, ih']
            constructor
            · intro h before b after s' heq hb
              cases before with
              | nil =>
                  obtain ⟨rfl, rfl⟩ := List.cons.inj heq
                  obtain rfl := Except.ok.inj hb
                  exact huse
              | cons c before =>
                  obtain ⟨rfl, hrest⟩ := List.cons.inj heq
                  rw [Transition.run_cons, hs] at hb
                  exact h before b after s' hrest hb
            · intro h before b after s' heq hb
              refine h (a :: before) b after s' (by rw [heq]; rfl) ?_
              rw [Transition.run_cons, hs]
              exact hb

/--
**The per-thread tables are indexed in range exactly as long as they are not used.**
A run from the state `start_server` builds stays in range if and only if no engine
thread executes an `ALL_RECV` in it, and the handler takes no pull of a stored key that
has an engine thread.
-/
theorem tablesInRange_iff (cfg : Config) (codec : Codec α κ) (as : List (Action α)) :
    TablesInRange cfg codec (startServer cfg) as ↔
      ∀ before a after s, as = before ++ a :: after →
        Transition.run (State.next cfg codec) (startServer cfg) before = .ok s →
          ¬UsesTables cfg s a := by
  refine tablesInRange_of_unsized as _ ?_ ?_
  · intro v hv
    simp only [perThreadTables, List.mem_cons, List.not_mem_nil, or_false] at hv
    rcases hv with rfl | rfl | rfl | rfl | rfl <;> rfl
  · intro i m hm
    cases hsync : cfg.syncMode <;>
      simp [State.waiting, startServer, hsync, Vec.replicate, PriorityQueue.init] at hm

/-! ### The first round of one worker -/

/-- A registry without compressors. -/
def noCompressor : Codec ℤ Unit :=
  { create := fun _ _ _ _ => none
    compress := fun c grad _ _ => (c, grad, 0)
    decompress := fun c _ _ _ => c }

/-- A push of four bytes by worker 0. -/
def pushOfOne (value : ℤ) : Action ℤ :=
  .handle { type := ⟨.kDefaultPushPull, .float32⟩, push := true, sender := 0 }
    { keys := [0], vals := fun _ => value, size := 4, lens := [4] }

/-- The init push, a push, and the two messages that push makes. -/
def firstRound : List (Action ℤ) :=
  [pushOfOne 0, pushOfOne 1, .pop 0, .execute 0, .pop 0, .execute 0]

/-- With default knobs, the first round of the first worker is out of range. -/
theorem firstRound_outOfRange :
    ¬∀ (cfg : Config) (as : List (Action ℤ)), cfg.syncMode = true → 1 ≤ cfg.engineThreadNum →
      TablesInRange cfg noCompressor (startServer cfg) as := by
  intro h
  exact h (initGlobalEnv (fun _ => none) 1 0) firstRound rfl (by decide) .flagMu
    (by simp [perThreadTables]) 0 rfl

end DeepInc.Server
