/-
What an engine queue keeps in order.

Without scheduling the queue is first in, first out.  With scheduling it is a heap
under a comparison that changes while messages wait: a push lowers the priority of
every waiting message of its key, a `clearCounter` raises it, and neither moves
those messages.  The heap order can be lost that way, and with it the order within a
key: the last section has a run in which the second message of a key is returned
before the first.

What is true is stated of the runs that keep the heap.  If every push and every
`clearCounter` finds the waiting messages ordered under the counters it is about to
write, the first element is always the oldest of its key, and the messages returned
of a key are a prefix of the ones pushed.
-/
import DeepInc.Lib.System
import DeepInc.Server.Queue
import Mathlib.Data.Prod.Lex
import Mathlib.Order.Nat

namespace DeepInc.Server.PriorityQueue

variable {α : Type}

/-! ### The comparison

Messages are ordered by the counter of their key, and within a key by their ids.  For given
counters that is a strict weak order, which is what the heap functions of the standard library
ask for.
-/

/-- What the comparison orders by: the counter of the key, then the id. -/
def rank (pushCnt : Key → ℕ) (m : EngineMessage α) : ℕ ×ₗ ℕ := toLex (pushCnt m.key, m.id)

theorem comparePriority_iff (pushCnt : Key → ℕ) (a b : EngineMessage α) :
    comparePriority pushCnt a b = true ↔ rank pushCnt b < rank pushCnt a := by
  unfold comparePriority rank
  rw [Prod.Lex.toLex_lt_toLex]
  split <;> simp <;> omega

theorem comparePriority_strictWeak (pushCnt : Key → ℕ) :
    ListHeap.StrictWeak (comparePriority (α := α) pushCnt) :=
  ListHeap.strictWeak_of_rank _ (rank pushCnt) (comparePriority_iff pushCnt)

/-- Of two messages of one key, the one not after the other has the smaller id. -/
theorem id_le_of_comparePriority {pushCnt : Key → ℕ} {a b : EngineMessage α}
    (hkey : a.key = b.key) (h : comparePriority pushCnt a b = false) : a.id ≤ b.id := by
  unfold comparePriority at h
  rw [if_pos (by rw [hkey])] at h
  simpa using h

/-! ### What one call does -/

@[simp] theorem push_enableSchedule (q : PriorityQueue α) (m : EngineMessage α) :
    (q.push m).enableSchedule = q.enableSchedule := by
  unfold push
  split <;> rfl

@[simp] theorem clearCounter_enableSchedule (q : PriorityQueue α) (key : Key) :
    (q.clearCounter key).enableSchedule = q.enableSchedule := by
  unfold clearCounter
  split <;> rfl

@[simp] theorem clearCounter_queue (q : PriorityQueue α) (key : Key) :
    (q.clearCounter key).queue = q.queue := by
  unfold clearCounter
  split <;> rfl

/-- A push adds the message to the ones waiting. -/
theorem push_perm (q : PriorityQueue α) (m : EngineMessage α) :
    (q.push m).queue.Perm (q.queue ++ [m]) := by
  unfold push
  split
  · exact ListHeap.pushHeap_perm _ _
  · exact .refl _

/-- Without scheduling it adds it at the end. -/
theorem push_fifo {q : PriorityQueue α} (h : q.enableSchedule = false) (m : EngineMessage α) :
    (q.push m).queue = q.queue ++ [m] := by
  unfold push
  rw [if_neg (by simp [h])]

/-- What a pop returns, and what it leaves. -/
theorem waitAndPop_spec {q q' : PriorityQueue α} {m : EngineMessage α}
    (h : q.waitAndPop = some (m, q')) :
    q.queue.Perm (m :: q'.queue) ∧ q'.pushCnt = q.pushCnt ∧
      q'.enableSchedule = q.enableSchedule ∧
      (q.enableSchedule = false → q.queue = m :: q'.queue) ∧
      (q.enableSchedule = true → ListHeap.Ordered (comparePriority q.pushCnt) q.queue →
        ListHeap.Ordered (comparePriority q.pushCnt) q'.queue ∧
          ∀ x ∈ q.queue, comparePriority q.pushCnt m x = false) := by
  unfold waitAndPop at h
  cases hs : q.enableSchedule with
  | true =>
      simp only [hs, if_true, Option.map_eq_some_iff] at h
      obtain ⟨v, hv, hvq⟩ := h
      obtain ⟨rfl, rfl⟩ := Prod.mk.inj hvq
      cases hq : q.queue with
      | nil => simp [hq, ListHeap.popHeap] at hv
      | cons x xs =>
          obtain ⟨l, hl, hperm⟩ := ListHeap.popHeap_cons (comparePriority q.pushCnt) x xs
          rw [hq, hl] at hv
          obtain rfl : x = v := by simpa using hv
          refine ⟨?_, rfl, rfl, by simp, fun _ hord => ⟨?_, ?_⟩⟩
          · show (x :: xs).Perm (x :: (ListHeap.popHeap _ (x :: xs)).dropLast)
            rw [hl, List.dropLast_concat]
            exact .cons x hperm.symm
          · exact ListHeap.popHeap_ordered _ (comparePriority_strictWeak _) hord
          · exact ListHeap.head_max _ (comparePriority_strictWeak _) hord
  | false =>
      simp only [hs, Bool.false_eq_true, if_false] at h
      cases hq : q.queue with
      | nil => simp [hq] at h
      | cons x xs =>
          rw [hq] at h
          simp only [Option.some.injEq, Prod.mk.injEq] at h
          obtain ⟨rfl, rfl⟩ := h
          exact ⟨.refl _, rfl, rfl, fun _ => rfl, by simp⟩

/-! ### The order within a key

Two messages of a key have the same counter, so that between them only the ids decide.  The
first message of a heap is therefore the oldest of its key, as long as it is a heap.
-/

@[simp] theorem ofKey_append (key : Key) (l l' : List (EngineMessage α)) :
    ofKey key (l ++ l') = ofKey key l ++ ofKey key l' := List.filter_append ..

@[simp] theorem ofKey_nil (key : Key) : ofKey key ([] : List (EngineMessage α)) = [] := rfl

theorem ofKey_cons_self {key : Key} {m : EngineMessage α} (h : m.key = key)
    (l : List (EngineMessage α)) : ofKey key (m :: l) = m :: ofKey key l := by
  simp [ofKey, h]

theorem ofKey_cons_ne {key : Key} {m : EngineMessage α} (h : m.key ≠ key)
    (l : List (EngineMessage α)) : ofKey key (m :: l) = ofKey key l := by
  simp [ofKey, h]

theorem ofKey_perm (key : Key) {l l' : List (EngineMessage α)} (h : l.Perm l') :
    (ofKey key l).Perm (ofKey key l') := h.filter _

theorem mem_ofKey {key : Key} {l : List (EngineMessage α)} {m : EngineMessage α} :
    m ∈ ofKey key l ↔ m ∈ l ∧ m.key = key := by
  simp [ofKey]

/-- The message with the least id stands first. -/
theorem eq_cons_of_least {l : List (EngineMessage α)} {m : EngineMessage α}
    (hinc : IncreasingIds l) (hm : m ∈ l) (hle : ∀ x ∈ l, m.id ≤ x.id) :
    ∃ rest, l = m :: rest := by
  cases l with
  | nil => cases hm
  | cons x rest =>
      rcases List.mem_cons.mp hm with rfl | hmr
      · exact ⟨rest, rfl⟩
      · have hlt := (List.pairwise_cons.mp hinc).1 m hmr
        have := hle x (by simp)
        omega

/--
What the queue owes of a key: the messages pushed are the ones returned followed by
ones still waiting, which without scheduling wait in that order.
-/
def Owes (h : History α) (key : Key) : Prop :=
  ∃ rest, ofKey key h.pushed = ofKey key h.returned ++ rest ∧
    rest.Perm (ofKey key h.queue.queue) ∧
    (h.queue.enableSchedule = false → rest = ofKey key h.queue.queue)

/-- What holds along a run that keeps the heap. -/
structure OrderInv (h : History α) : Prop where
  heap : h.queue.enableSchedule = true →
    ListHeap.Ordered (comparePriority h.queue.pushCnt) h.queue.queue
  owes : ∀ key, Owes h key

theorem OrderInv.push {h : History α} (inv : OrderInv h) (m : EngineMessage α)
    (hguard : h.KeepsHeap (.push m)) :
    OrderInv { h with queue := h.queue.push m, pushed := h.pushed ++ [m] } := by
  refine ⟨?_, fun key => ?_⟩
  · intro hs
    rw [push_enableSchedule] at hs
    unfold PriorityQueue.push
    rw [if_pos hs]
    exact ListHeap.pushHeap_ordered _ (comparePriority_strictWeak _) m (hguard hs)
  · obtain ⟨rest, hrest, hperm, hfifo⟩ := inv.owes key
    refine ⟨rest ++ ofKey key [m], ?_, ?_, fun hs => ?_⟩
    · show ofKey key (h.pushed ++ [m]) = ofKey key h.returned ++ (rest ++ ofKey key [m])
      rw [ofKey_append, hrest, List.append_assoc]
    · have hpush := ofKey_perm key (push_perm h.queue m)
      rw [ofKey_append] at hpush
      exact (hperm.append_right _).trans hpush.symm
    · rw [push_enableSchedule] at hs
      show rest ++ ofKey key [m] = ofKey key (h.queue.push m).queue
      rw [push_fifo hs, ofKey_append, hfifo hs]

theorem OrderInv.pop {h : History α} (inv : OrderInv h) (hinc : IncreasingIds h.pushed)
    {m : EngineMessage α} {q : PriorityQueue α} (hpop : h.queue.waitAndPop = some (m, q)) :
    OrderInv { h with queue := q, returned := h.returned ++ [m] } := by
  obtain ⟨hperm, hcnt, hsch, hfifo, hheap⟩ := waitAndPop_spec hpop
  refine ⟨?_, fun key => ?_⟩
  · intro hs
    have hs' : h.queue.enableSchedule = true := hsch ▸ hs
    show ListHeap.Ordered (comparePriority q.pushCnt) q.queue
    rw [hcnt]
    exact (hheap hs' (inv.heap hs')).1
  · obtain ⟨rest, hrest, hrperm, hrfifo⟩ := inv.owes key
    by_cases hkey : m.key = key
    · have hqperm : (ofKey key h.queue.queue).Perm (m :: ofKey key q.queue) := by
        have := ofKey_perm key hperm
        rwa [ofKey_cons_self hkey] at this
      -- the popped message is the oldest of its key that still waits
      obtain ⟨rest', rfl⟩ : ∃ rest', rest = m :: rest' := by
        cases hs : h.queue.enableSchedule with
        | false =>
            refine ⟨ofKey key q.queue, ?_⟩
            rw [hrfifo hs, hfifo hs, ofKey_cons_self hkey]
        | true =>
            have hsub : rest.Sublist h.pushed := by
              have := List.sublist_append_right (ofKey key h.returned) rest
              rw [← hrest] at this
              exact this.trans List.filter_sublist
            refine eq_cons_of_least (hinc.sublist hsub)
              ((hrperm.trans hqperm).symm.subset (by simp)) fun x hx => ?_
            obtain ⟨hxq, hxk⟩ := mem_ofKey.mp (hrperm.subset hx)
            exact id_le_of_comparePriority (hkey.trans hxk.symm)
              ((hheap hs (inv.heap hs)).2 x hxq)
      refine ⟨rest', ?_, List.perm_cons m |>.mp (hrperm.trans hqperm), fun hs => ?_⟩
      · show ofKey key h.pushed = ofKey key (h.returned ++ [m]) ++ rest'
        rw [hrest, ofKey_append, ofKey_cons_self hkey]
        simp
      · have hs' : h.queue.enableSchedule = false := hsch ▸ hs
        have := hrfifo hs'
        rw [hfifo hs', ofKey_cons_self hkey] at this
        exact (List.cons.inj this).2
    · refine ⟨rest, ?_, ?_, fun hs => ?_⟩
      · show ofKey key h.pushed = ofKey key (h.returned ++ [m]) ++ rest
        rw [ofKey_append, ofKey_cons_ne hkey, hrest]
        simp
      · have := ofKey_perm key hperm
        rw [ofKey_cons_ne hkey] at this
        exact hrperm.trans this
      · have hs' : h.queue.enableSchedule = false := hsch ▸ hs
        rw [hrfifo hs', hfifo hs', ofKey_cons_ne hkey]

theorem OrderInv.clear {h : History α} (inv : OrderInv h) (key : Key)
    (hguard : h.KeepsHeap (.clearCounter key)) :
    OrderInv { h with queue := h.queue.clearCounter key } := by
  refine ⟨?_, fun k => ?_⟩
  · intro hs
    rw [clearCounter_enableSchedule] at hs
    unfold clearCounter
    rw [if_pos hs]
    exact hguard hs
  · obtain ⟨rest, hrest, hperm, hfifo⟩ := inv.owes k
    refine ⟨rest, hrest, ?_, fun hs => ?_⟩
    · rw [clearCounter_queue]; exact hperm
    · rw [clearCounter_enableSchedule] at hs
      rw [clearCounter_queue]; exact hfifo hs

theorem orderInv_of_reachable {isSchedule : Bool} {h : History α}
    (hr : Transition.Reachable (· = History.init isSchedule)
      (Transition.Guarded History.KeepsHeap History.Step) h) :
    IncreasingIds h.pushed → OrderInv h := by
  refine hr.invariant (P := fun h => IncreasingIds h.pushed → OrderInv h) ?_ ?_
  · rintro _ rfl _
    exact ⟨fun _ i a b _ _ hb => by simp [History.init, PriorityQueue.init] at hb,
      fun key => ⟨[], rfl, .refl _, fun _ => rfl⟩⟩
  · rintro s c s' - ih ⟨hguard, hcall⟩ hinc
    cases c with
    | push m =>
        obtain rfl := Option.some.inj hcall
        exact (ih (hinc.sublist (List.sublist_append_left _ _))).push m hguard
    | waitAndPop =>
        obtain ⟨⟨m, q⟩, hpop, rfl⟩ := Option.map_eq_some_iff.mp hcall
        exact (ih hinc).pop hinc hpop
    | clearCounter key =>
        obtain rfl := Option.some.inj hcall
        exact (ih hinc).clear key hguard

/--
**Runs that keep the heap keep the order within every key.** The messages of a key that were
returned are a prefix of the ones that were pushed.

Without scheduling every run is one of these.  With scheduling a run is, as long as every call
that changes a counter finds the waiting messages in the order of the counters it is about to
write.
-/
theorem inOrder_of_keepsHeap {isSchedule : Bool} {h : History α}
    (hr : Transition.Reachable (· = History.init isSchedule)
      (Transition.Guarded History.KeepsHeap History.Step) h)
    (hinc : IncreasingIds h.pushed) : h.InOrder := by
  intro key
  obtain ⟨rest, hrest, -, -⟩ := (orderInv_of_reachable hr hinc).owes key
  exact ⟨rest, hrest.symm⟩

/-! ### A run that loses the order -/

/-- A received message with the given id, key and operation. -/
def received (id : ℕ) (key : Key) (ops : EngineOperation) : EngineMessage Unit :=
  let data : KVPairs Unit := { keys := [key], vals := fun _ => (), size := 4, lens := [4] }
  { id := id, type := ⟨.kDefaultPushPull, .float32⟩, key := key, dst := some (.stored key),
    src := data.data, len := 4, ops := ops, sarray := data }

/-- A round of at least five workers has begun for key 0 and for key 1. -/
def overtakingCalls : List (Call Unit) :=
  [.push (received 0 0 .copyFirst), .push (received 1 1 .copyFirst),
    .push (received 2 0 .sumRecv), .push (received 3 0 .sumRecv), .push (received 4 0 .sumRecv),
    .push (received 5 1 .sumRecv), .waitAndPop]

/-- Call after call, as long as each returns. -/
def History.calls (h : History α) : List (Call α) → Option (History α)
  | [] => some h
  | c :: rest => (h.call c).bind fun h' => h'.calls rest

theorem History.calls_reachable {init : History α → Prop} (cs : List (Call α)) {h h' : History α}
    (hr : Transition.Reachable init History.Step h) (hcalls : h.calls cs = some h') :
    Transition.Reachable init History.Step h' := by
  induction cs generalizing h with
  | nil => cases hcalls; exact hr
  | cons c rest ih =>
      obtain ⟨h₁, hc, hrest⟩ := Option.bind_eq_some_iff.mp hcalls
      exact ih (.next hr hc) hrest

/-- The ids pushed, and the ids returned, of key 1. -/
theorem overtakingCalls_ids :
    ((History.init true).calls overtakingCalls).map
      (fun h => ((ofKey 1 h.pushed).map (·.id), (ofKey 1 h.returned).map (·.id), h.pushed.map (·.id)))
      = some ([1, 5], [5], [0, 1, 2, 3, 4, 5]) := by
  rfl

/--
With scheduling on, the order within a key can be lost: the second message of key 1
is returned while the first still waits.
-/
theorem sumRecv_overtakes :
    ¬ ∀ (isSchedule : Bool) (h : History Unit),
      Transition.Reachable (· = History.init isSchedule) History.Step h →
        IncreasingIds h.pushed → h.InOrder := by
  intro hall
  obtain ⟨h, hcalls, hids⟩ := Option.map_eq_some_iff.mp overtakingCalls_ids
  simp only [Prod.mk.injEq] at hids
  obtain ⟨hpushed, hreturned, hall_ids⟩ := hids
  have hinc : IncreasingIds h.pushed := by
    have : (h.pushed.map (·.id)).Pairwise (· < ·) := by rw [hall_ids]; decide
    exact List.pairwise_map.mp this
  have hpre := hall true h (History.calls_reachable _ (.start rfl) hcalls) hinc 1
  have := hpre.map (·.id)
  rw [hpushed, hreturned] at this
  exact absurd this (by decide)

/-- With scheduling on, two messages of one key keep the heap. -/
theorem inOrder_of_keepsHeap_round :
    @History.InOrder Unit
      { queue :=
          { queue := [received 1 0 .sumRecv]
            pushCnt := countPush (countPush (fun _ => 0) 0) 0
            enableSchedule := true }
        pushed := [received 0 0 .copyFirst, received 1 0 .sumRecv]
        returned := [received 0 0 .copyFirst] } := by
  refine @inOrder_of_keepsHeap Unit true _ ?_ (by simp [IncreasingIds, received])
  refine .next (a := .waitAndPop) (.next (a := .push (received 1 0 .sumRecv))
    (.next (a := .push (received 0 0 .copyFirst)) (.start rfl) ⟨?_, rfl⟩) ⟨?_, rfl⟩) ⟨trivial, rfl⟩
  · intro _ i a b _ _ hb
    simp [History.init, PriorityQueue.init] at hb
  · intro _ i a b hi _ hb
    have : i < 1 := (List.getElem?_eq_some_iff.mp hb).1
    omega

end DeepInc.Server.PriorityQueue
