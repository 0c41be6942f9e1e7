/-
What waits at the engine threads.

That a message is executed at some time needs more than that its thread is not idle: other
messages are put into the queue all the time, and the thread may be busy with those.  Here is
what bounds it when scheduling is off and queues are first in, first out.

A request adds messages of its own key, at the end of one queue, and an execution takes the
message in hand and touches no queue.  So the messages of a key that wait at a thread get ahead
with every message the thread takes and with every one it executes, and what other keys add
comes after them.

`distance` counts how many such steps are left until the last message of a key is done.  A step
of the thread lowers it by one, and no other step raises it, except a request for the key
itself.  Requests for a key are bounded by other means, since workers wait for their answers.
-/
import DeepInc.Proofs.Server.Simulation

namespace DeepInc.Server

open Outcome PriorityQueue

variable {α κ : Type} {cfg : Config} {codec : Codec α κ}

namespace State

variable {key : Key} {s s' s'' : State α κ}

/-! ### Requests

Every branch of the handler either adds no message or adds one for its key.  `AddsWork` is
closed under composition, so that each function is a line for every function it calls.
-/

/-- Only messages of `key` were added, and only its thread was chosen. -/
structure AddsWork (key : Key) (s s' : State α κ) : Prop where
  hand : s'.hand = s.hand
  hashCache : ∀ k, k ≠ key → s'.hashCache k = s.hashCache k
  fifo : (∀ i, (s.engineQueues.get i).enableSchedule = false) →
    (∀ i, (s'.engineQueues.get i).enableSchedule = false) ∧
      ∀ i, ∃ more, s'.waiting i = s.waiting i ++ more ∧ ∀ m ∈ more, m.key = key

namespace AddsWork

theorem of_eq (hq : s'.engineQueues = s.engineQueues) (hh : s'.hand = s.hand)
    (hc : ∀ k, k ≠ key → s'.hashCache k = s.hashCache k) : AddsWork key s s' := by
  refine ⟨hh, hc, fun hf => ⟨by rwa [hq], fun i => ⟨[], ?_, by simp⟩⟩⟩
  simp only [waiting, hq, hh, List.append_nil]

theorem refl (s : State α κ) : AddsWork key s s := .of_eq rfl rfl fun _ _ => rfl

theorem trans (h : AddsWork key s s') (h' : AddsWork key s' s'') : AddsWork key s s'' := by
  refine ⟨h'.hand.trans h.hand, fun k hk => (h'.hashCache k hk).trans (h.hashCache k hk),
    fun hf => ?_⟩
  obtain ⟨hf', hadd⟩ := h.fifo hf
  obtain ⟨hf'', hadd'⟩ := h'.fifo hf'
  refine ⟨hf'', fun i => ?_⟩
  obtain ⟨more, heq, hkey⟩ := hadd i
  obtain ⟨more', heq', hkey'⟩ := hadd' i
  refine ⟨more ++ more', by rw [heq', heq, List.append_assoc], fun m hm => ?_⟩
  rcases List.mem_append.mp hm with hm | hm
  · exact hkey m hm
  · exact hkey' m hm

end AddsWork

theorem addsWork_pushMessage (s : State α κ) (t : ℕ) {m : EngineMessage α} (hm : m.key = key) :
    AddsWork key s (s.pushMessage t m) := by
  refine ⟨rfl, fun _ _ => rfl, fun hf => ⟨fun i => ?_, fun i => ?_⟩⟩
  · show ((s.engineQueues.set t ((s.engineQueues.get t).push m)).get i).enableSchedule = _
    by_cases hi : i = t
    · subst hi
      rw [Vec.set_get_self, push_enableSchedule]
      exact hf i
    · rw [Vec.set_get_ne _ hi]
      exact hf i
  · by_cases hi : i = t
    · subst hi
      exact ⟨[m], waiting_pushMessage_fifo (hf i) m, by simp [hm]⟩
    · exact ⟨[], by rw [s.waiting_pushMessage_ne hi, List.append_nil], by simp⟩

theorem addsWork_clearCounter (s : State α κ) (t : ℕ) : AddsWork key s (s.clearCounter t key) := by
  refine ⟨rfl, fun _ _ => rfl, fun hf => ⟨fun i => ?_, fun i => ⟨[], ?_, by simp⟩⟩⟩
  · show ((s.engineQueues.set t ((s.engineQueues.get t).clearCounter key)).get i).enableSchedule = _
    by_cases hi : i = t
    · subst hi
      rw [Vec.set_get_self, clearCounter_enableSchedule]
      exact hf i
    · rw [Vec.set_get_ne _ hi]
      exact hf i
  · rw [waiting_clearCounter, List.append_nil]

theorem addsWork_local (h : Local key s s') : AddsWork key s s' :=
  .of_eq h.engineQueues h.hand fun _ _ => by rw [h.hashCache]

theorem getThreadID_adds (cfg : Config) (s : State α κ) (key : Key) (len : ℕ) :
    Ensures (s.getThreadID cfg key len) (fun r => AddsWork key s r.2) fun _ => True := by
  unfold getThreadID
  split
  · exact .ok (.refl s)
  · split
    · exact .error trivial
    · refine Ensures.bind (.any _) fun _ _ => Ensures.bind (.any _) fun _ _ => ?_
      split
      · exact .error trivial
      · exact Ensures.bind (.any _) fun _ _ => .ok (.of_eq rfl rfl fun k hk =>
          Function.update_of_ne hk _ _)

theorem enqueue_adds (s : State α κ) (t : ℕ) {m : EngineMessage α} (hm : m.key = key) :
    Ensures (s.enqueue t m) (AddsWork key s) fun _ => True :=
  Ensures.bind (.any _) fun _ _ => .ok (s.addsWork_pushMessage t hm)

theorem registerCompressor_adds (cfg : Config) (codec : Codec α κ) (s : State α κ) (key : Key)
    (req : KVMeta) (data : KVPairs α) :
    Ensures (s.registerCompressor cfg codec key req data) (fun r => AddsWork key s r.1)
      fun _ => True := by
  have hcollect : ∀ s : State α κ, AddsWork key s (s.collectInit cfg key req).1 := fun s =>
    addsWork_local (.collectInit ..)
  unfold registerCompressor
  split
  · exact .ok (hcollect s)
  · split
    · exact .error trivial
    · dsimp only
      split
      · exact .error trivial
      · exact .ok ((addsWork_local (.setCompressor ..)).trans (hcollect _))

section Push

variable [Zero α]

theorem initPush_adds (cfg : Config) (s : State α κ) (key : Key) (req : KVMeta) (data : KVPairs α)
    (len : ℕ) : Ensures (s.initPush cfg key req data len) (fun r => AddsWork key s r.1)
      fun _ => True := by
  have hnote : AddsWork key s (s.noteMerged cfg key len req.type.dtype) :=
    addsWork_local (.noteMerged ..)
  have hcollect : ∀ s : State α κ, AddsWork key s (s.collectInit cfg key req).1 := fun s =>
    addsWork_local (.collectInit ..)
  unfold initPush
  split
  · exact .ok (hnote.trans (hcollect _))
  · refine Ensures.bind (Q := AddsWork key s) ?_ fun s₁ h₁ => .ok (h₁.trans (hcollect s₁))
    refine Ensures.bind (ensures_pageAlignedMalloc _ _) (fun s₁ h₁ => .ok ?_) |>.mono
      (fun _ h => h) fun _ _ => trivial
    obtain ⟨rfl, -⟩ := h₁
    exact hnote.trans (.of_eq rfl rfl fun _ _ => rfl)

theorem pull_adds (cfg : Config) (s : State α κ) (key : Key) (req : KVMeta) :
    Ensures (s.pull cfg key req) (fun r => AddsWork key s r.1) fun _ => True := by
  refine Ensures.bind (.any _) fun _ _ => ?_
  split
  · exact Ensures.bind (.any _) fun _ _ => .ok (.refl s)
  · refine Ensures.bind (s.getThreadID_adds cfg key 0) fun r h => ?_
    refine Ensures.bind (.any _) fun _ _ => ?_
    dsimp only
    split
    · refine Ensures.bind (.any _) fun _ _ => Ensures.bind (.any _) fun _ _ => .ok ?_
      exact h.trans (.of_eq rfl rfl fun _ _ => rfl)
    · exact Ensures.bind (.any _) fun _ _ => .ok (h.trans (.of_eq rfl rfl fun _ _ => rfl))

theorem completeRound_adds (cfg : Config) (s : State α κ) (t : ℕ) (key : Key) (req : KVMeta)
    (len : ℕ) : Ensures (s.completeRound cfg t key req len) (fun r => AddsWork key s r.1)
      fun _ => True := by
  unfold completeRound
  split
  · split
    · exact .error trivial
    · exact .ok (.of_eq rfl rfl fun _ _ => rfl)
  · refine Ensures.bind (s.enqueue_adds t (Eq.refl key)) fun s₁ h₁ => .ok ?_
    exact h₁.trans (s₁.addsWork_clearCounter t)

variable [Add α]

theorem accumulate_adds (cfg : Config) (s : State α κ) (t : ℕ) (key : Key) (req : KVMeta)
    (data : KVPairs α) (len : ℕ) :
    Ensures (s.accumulate cfg t key req data len) (fun r => AddsWork key s r.1) fun _ => True := by
  unfold accumulate
  split
  · split
    · exact Ensures.bind (s.enqueue_adds t (Eq.refl key)) fun _ h => .ok h
    · exact .ok (.of_eq rfl rfl fun _ _ => rfl)
  · refine Ensures.bind (.any _) fun _ _ => ?_
    split
    · dsimp only
      split
      · exact .error trivial
      · refine .ok (.of_eq ?_ ?_ ?_) <;> (rename_i p _; cases p) <;> intros <;> rfl
    · exact Ensures.bind (s.enqueue_adds t (Eq.refl key)) fun _ h => .ok h

theorem push_adds (cfg : Config) (s : State α κ) (key : Key) (req : KVMeta) (data : KVPairs α)
    (len : ℕ) : Ensures (s.push cfg key req data len) (fun r => AddsWork key s r.1)
      fun _ => True := by
  refine Ensures.bind (s.getThreadID_adds cfg key len) fun r₁ h₁ => ?_
  refine Ensures.bind (r₁.2.accumulate_adds cfg r₁.1 key req data len) fun r₂ h₂ => ?_
  have h := h₁.trans h₂
  dsimp only
  split
  · refine Ensures.bind (r₂.1.completeRound_adds cfg r₁.1 key req len) fun r₃ h₃ => .ok ?_
    exact (h.trans h₃).trans (addsWork_local (.setRequest ..))
  · split
    · exact .ok (h.trans (addsWork_local (.setRequest ..)))
    · exact .ok (h.trans (addsWork_local (.setRequest ..)))

/-- A request for one key adds work of that key only. -/
theorem handle_adds (cfg : Config) (codec : Codec α κ) (s : State α κ) (req : KVMeta)
    (data : KVPairs α) {k : ℕ} (hkeys : data.keys = [k]) :
    Ensures (s.handle cfg codec req data) (fun r => AddsWork (cfg.decodeKey k) s r.1)
      fun _ => True := by
  unfold handle
  rw [hkeys]
  refine Ensures.bind (.any _) fun _ _ => ?_
  dsimp only
  split
  · exact registerCompressor_adds ..
  · split
    · split
      · refine Ensures.bind (.any _) fun _ _ => ?_
        split
        · exact initPush_adds ..
        · exact push_adds ..
      · exact .error trivial
    · exact pull_adds ..

end Push

/-! ### Executions -/

/-- The engine queues, the hands and the threads of the keys are the same. -/
structure SameQueues (s s' : State α κ) : Prop where
  engineQueues : s'.engineQueues = s.engineQueues
  hand : s'.hand = s.hand
  hashCache : s'.hashCache = s.hashCache

theorem SameQueues.trans (h : SameQueues s s') (h' : SameQueues s' s'') : SameQueues s s'' :=
  ⟨h'.engineQueues.trans h.engineQueues, h'.hand.trans h.hand, h'.hashCache.trans h.hashCache⟩

theorem write_same (s : State α κ) (p : Ptr α) (m : Mem α) : SameQueues s (s.write p m) := by
  cases p <;> exact ⟨rfl, rfl, rfl⟩

section Execute

variable [Zero α]

theorem convert_same (codec : Codec α κ) (s : State α κ) (m : EngineMessage α) (src : Ptr α) :
    Ensures (s.convert codec m src) (fun r => SameQueues s r.1) fun _ => True := by
  unfold convert
  split
  · split
    · have hset : ∀ c, SameQueues s (s.setCompressor m.key c) := fun _ => ⟨rfl, rfl, rfl⟩
      exact .ok (((hset _).trans (write_same _ src _)).trans ⟨rfl, rfl, rfl⟩)
    · split
      · exact .error trivial
      · exact Ensures.bind (.any _) fun _ _ => .ok ⟨rfl, rfl, rfl⟩
  · split
    · exact .ok ⟨rfl, rfl, rfl⟩
    · exact .ok ⟨rfl, rfl, rfl⟩

theorem openWindow_same (cfg : Config) (s : State α κ) (i : ℕ) (key : Key) :
    Ensures (s.openWindow cfg i key) (fun r => SameQueues s r.1) fun _ => True :=
  Ensures.bind (.any _) fun _ _ => Ensures.bind (.any _) fun _ _ => .ok ⟨rfl, rfl, rfl⟩

/-- A thread executes the message in hand, and nothing else happens to what waits. -/
theorem execute_same [Add α] (cfg : Config) (codec : Codec α κ) (s : State α κ) {i : ℕ}
    {m : EngineMessage α} (hm : s.hand i = some m) (hops : m.ops ≠ .terminate) :
    Ensures (s.execute cfg codec i) (fun r => SameQueues (s.dropHand i) r.1) fun _ => True := by
  unfold execute
  simp only [hm, if_neg hops]
  split
  · exact .error trivial
  · exact .error trivial
  · refine Ensures.bind (convert_same codec (s.dropHand i) m _) fun r hr => ?_
    split
    · exact .ok (hr.trans (write_same ..))
    · exact .ok (hr.trans (write_same ..))
    · exact Ensures.bind (openWindow_same ..) fun _ h => .ok (hr.trans h)
    · exact .ok hr

end Execute

end State

/-! ### How far off the last message is

The queue of a thread is cut behind the last message of the key.  Taking and executing are two
steps for each message, so the messages in front of the cut count twice, and the one in hand
once.
-/

/-- The messages up to the last one of `key`. -/
def upTo (key : Key) : List (EngineMessage α) → ℕ
  | [] => 0
  | m :: rest => if upTo key rest = 0 then if m.key = key then 1 else 0 else upTo key rest + 1

section UpTo

variable {key : Key} {l : List (EngineMessage α)}

theorem upTo_eq_zero : upTo key l = 0 ↔ ∀ m ∈ l, m.key ≠ key := by
  induction l with
  | nil => simp [upTo]
  | cons m rest ih =>
      unfold upTo
      by_cases hrest : upTo key rest = 0
      · rw [if_pos hrest]
        by_cases hm : m.key = key
        · simp [hm]
        · simpa [hm] using ih.mp hrest
      · rw [if_neg hrest]
        refine ⟨fun h => absurd h (Nat.succ_ne_zero _), fun h => absurd ?_ hrest⟩
        exact ih.mpr fun m' hm' => h m' (List.mem_cons_of_mem m hm')

theorem upTo_pos : 0 < upTo key l ↔ ∃ m ∈ l, m.key = key := by
  rw [Nat.pos_iff_ne_zero, Ne, upTo_eq_zero]
  simp

/-- What other keys add at the end does not count. -/
theorem upTo_append {more : List (EngineMessage α)} (h : ∀ m ∈ more, m.key ≠ key) :
    upTo key (l ++ more) = upTo key l := by
  induction l with
  | nil => exact upTo_eq_zero.mpr h
  | cons m rest ih =>
      rw [List.cons_append]
      unfold upTo
      rw [ih]

/-- One message less to wait for. -/
theorem upTo_cons {m : EngineMessage α} (h : 0 < upTo key (m :: l)) :
    upTo key (m :: l) = upTo key l + 1 := by
  have hcons : upTo key (m :: l) =
      if upTo key l = 0 then if m.key = key then 1 else 0 else upTo key l + 1 := rfl
  rw [hcons] at h ⊢
  by_cases hl : upTo key l = 0
  · rw [if_pos hl] at h ⊢
    split at h
    · rw [if_pos ‹_›, hl]
    · exact absurd h (Nat.lt_irrefl 0)
  · rw [if_neg hl]

theorem upTo_tail {m : EngineMessage α} (h : upTo key (m :: l) = 0) : upTo key l = 0 :=
  upTo_eq_zero.mpr fun m' hm' => upTo_eq_zero.mp h m' (List.mem_cons_of_mem m hm')

end UpTo

namespace State

variable {job : Job α κ cfg codec} {key : Key} {s s' : State α κ} {t : ℕ}

/-- Thread `t` has work of `key`. -/
def Owes (s : State α κ) (key : Key) (t : ℕ) : Prop :=
  s.hashCache key = some t ∧ 0 < upTo key (s.waiting t)

/-- The steps a thread takes before its last message of `key` is executed. -/
def distance (s : State α κ) (key : Key) : ℕ :=
  match s.hashCache key with
  | none => 0
  | some t => 2 * upTo key (s.waiting t) - if (s.hand t).isSome then 1 else 0

theorem distance_eq (h : s.hashCache key = some t) :
    s.distance key = 2 * upTo key (s.waiting t) - if (s.hand t).isSome then 1 else 0 := by
  unfold distance
  rw [h]

/-- The engine has as much to do for the key as before. -/
structure Stays (key : Key) (s s' : State α κ) : Prop where
  distance : s'.distance key = s.distance key
  owes : ∀ t, s.Owes key t → s'.Owes key t ∧ s'.hand t = s.hand t

theorem Stays.refl (s : State α κ) : Stays key s s := ⟨rfl, fun _ h => ⟨h, rfl⟩⟩

/-- What happens at other threads does not matter. -/
theorem stays_of_eq (hhash : s'.hashCache key = s.hashCache key)
    (h : ∀ t, s.hashCache key = some t → upTo key (s'.waiting t) = upTo key (s.waiting t) ∧
      (s'.hand t = s.hand t ∨ upTo key (s.waiting t) = 0)) : Stays key s s' := by
  refine ⟨?_, fun t ht => ?_⟩
  · cases ht : s.hashCache key with
    | none =>
        unfold distance
        rw [hhash, ht]
    | some t =>
        obtain ⟨hup, hhand⟩ := h t ht
        rw [distance_eq ht, distance_eq (hhash.trans ht), hup]
        rcases hhand with hhand | hzero
        · rw [hhand]
        · rw [hzero]
          omega
  · obtain ⟨hup, hhand⟩ := h t ht.1
    refine ⟨⟨hhash.trans ht.1, by rw [hup]; exact ht.2⟩, hhand.resolve_right fun hzero => ?_⟩
    have := ht.2
    omega

/-- Requests for other keys leave the work for a key where it was. -/
theorem AddsWork.stays {k : Key} (h : AddsWork k s s') (hk : key ≠ k)
    (hfifo : ∀ i, (s.engineQueues.get i).enableSchedule = false) : Stays key s s' := by
  refine stays_of_eq (h.hashCache key hk) fun t _ => ⟨?_, .inl (congrFun h.hand t)⟩
  obtain ⟨more, hwaiting, hkeys⟩ := (h.fifo hfifo).2 t
  rw [hwaiting]
  exact upTo_append fun m hm heq => hk (heq.symm.trans (hkeys m hm))

/-- A thread that has nothing in hand takes its next message. -/
theorem Sound.pop_of_owes (h : s.Sound job) (hfifo : cfg.enableSchedule = false)
    (ht : s.Owes key t) (hhand : s.hand t = none) : ∃ m, (s.pop t).hand t = some m := by
  have hlt : t < s.engineQueues.size := h.queues ▸ h.hash_lt key t ht.1
  obtain ⟨m, hm, -⟩ := upTo_pos.mp ht.2
  have hqueue : m ∈ (s.engineQueues.get t).queue := by simpa [waiting, hhand] using hm
  unfold State.pop PriorityQueue.waitAndPop
  rw [hhand, (h.schedule t).trans hfifo]
  simp only [if_pos hlt, Bool.false_eq_true, if_false]
  cases hq : (s.engineQueues.get t).queue with
  | nil =>
      rw [hq] at hqueue
      cases hqueue
  | cons m' rest => exact ⟨m', Function.update_self ..⟩

/-- Taking a message brings the work for a key nearer, or has nothing to do with it. -/
theorem Sound.distance_pop (h : s.Sound job) (hfifo : cfg.enableSchedule = false) (i : ℕ) :
    (s.pop i).distance key < s.distance key ∨
      (Stays key s (s.pop i) ∧ ¬(s.Owes key i ∧ s.hand i = none)) := by
  have hwaiting : ∀ j, (s.pop i).waiting j = s.waiting j :=
    waiting_pop_fifo ((h.schedule i).trans hfifo)
  have hhash : (s.pop i).hashCache = s.hashCache := by
    rcases s.pop_cases i with heq | ⟨m, q, -, -, heq⟩ <;> rw [heq]
  by_cases howes : s.Owes key i ∧ s.hand i = none
  · obtain ⟨m, hm⟩ := h.pop_of_owes hfifo howes.1 howes.2
    refine .inl ?_
    rw [distance_eq howes.1.1, distance_eq (hhash ▸ howes.1.1), hwaiting, hm, howes.2]
    have := howes.1.2
    simp only [Option.isSome_some, Option.isSome_none, if_true, Bool.false_eq_true, if_false]
    omega
  · refine .inr ⟨stays_of_eq (congrFun hhash key) fun t ht => ⟨by rw [hwaiting], ?_⟩, howes⟩
    rcases s.pop_cases i with heq | ⟨m, q, hnone, -, heq⟩
    · exact .inl (by rw [heq])
    · by_cases hti : t = i
      · subst hti
        refine .inr (Nat.eq_zero_of_not_pos fun hpos => howes ⟨⟨ht, hpos⟩, hnone⟩)
      · exact .inl (by rw [heq]; exact Function.update_of_ne hti _ _)

/-- So does executing one. -/
theorem distance_execute {i : ℕ} {m : EngineMessage α} (hm : s.hand i = some m)
    (h : SameQueues (s.dropHand i) s') :
    s'.distance key < s.distance key ∨ (Stays key s s' ∧ ¬s.Owes key i) := by
  have hself : s.waiting i = m :: s'.waiting i := by
    rw [waiting_execute hm]
    simp only [waiting, h.engineQueues, h.hand]
    rfl
  have hother : ∀ j, j ≠ i → s'.waiting j = s.waiting j ∧ s'.hand j = s.hand j := by
    intro j hj
    have hhand : s'.hand j = s.hand j := by
      rw [h.hand]
      exact Function.update_of_ne hj _ _
    refine ⟨?_, hhand⟩
    simp only [waiting, h.engineQueues, hhand]
    rfl
  have hhash : s'.hashCache key = s.hashCache key := congrFun h.hashCache key
  by_cases howes : s.Owes key i
  · refine .inl ?_
    have hdrop : s'.hand i = none := by
      rw [h.hand]
      exact Function.update_self ..
    have hpos := howes.2
    rw [hself] at hpos
    have hup := upTo_cons hpos
    rw [distance_eq howes.1, distance_eq (hhash.trans howes.1), hself, hup, hm, hdrop]
    simp only [Option.isSome_some, Option.isSome_none, if_true, Bool.false_eq_true, if_false]
    omega
  · refine .inr ⟨stays_of_eq hhash fun t ht => ?_, howes⟩
    by_cases hti : t = i
    · subst hti
      have hzero : upTo key (s.waiting t) = 0 := Nat.eq_zero_of_not_pos fun hpos => howes ⟨ht, hpos⟩
      refine ⟨?_, .inr hzero⟩
      rw [hzero]
      rw [hself] at hzero
      exact upTo_tail hzero
    · obtain ⟨hwaiting, hhand⟩ := hother t hti
      exact ⟨by rw [hwaiting], .inl hhand⟩

end State

end DeepInc.Server
