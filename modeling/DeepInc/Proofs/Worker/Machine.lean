/-
Every signal of a machine comes in its turn.

The processes of a machine talk to each other by short messages, and rely on their order.  A
signal to the root is counted in a table, with a check that it is not one too many; a signal to
make a call finds the task in the queue of that call, or a check fails; and what tells a device
to copy is counted like the others.

The rounds of a key go on as those of `KeyRounds.lean` whatever the other keys of the machine
do, so the counts never run over and a call finds the task it is for.  The whole of a machine is
tied to its keys by `Follows`, and this file puts the kinds of steps together.

What is said is said of any run, with any number of tensors and any order of steps, as long as a
device adds a task of a key only when it has none of it.  The signals are then known to be in
their turn; that a machine comes to an end of its work is in `Drain.lean`.
-/
import DeepInc.Proofs.Worker.Signals

namespace DeepInc.Worker

open Transition Outcome

namespace Machine

/-! ### Runs -/

section Runs

variable {cfg : Config} {m m' : Machine}

/-- **A step of a machine is a step of the key it is about.** -/
theorem step_follows (hsize : 2 ≤ cfg.localSize) (h : m.Sound cfg) {a : Act}
    (honce : m.OncePerKey a)
    (hs : step cfg m a = .ok m') : Follows cfg m m' := by
  cases a with
  | device d a =>
      have hs : (if d < cfg.localSize then stepDevice cfg m d a else .error .notEnabled) =
          .ok m' := hs
      split at hs
      · rename_i hlt
        have hd : d ≤ cfg.root := by
          unfold Config.root
          omega
        cases a with
        | enqueueTensor args now => exact enqueueTensor_follows h hs
        | addNext call => exact addNext_follows h hd honce hs
        | getTask op ready now => exact runLoopOnce_follows hsize h hd hs
        | finish t now => exact runFinish_follows h hd hs
        | syncNccl now => exact runSyncNcclOnce_follows h hd hs
        | complete i now => exact complete_follows h hs
      · cases hs
  | root a =>
      cases a with
      | compress t => exact runCompress_follows hsize h hs
      | endGroup =>
          have hs : Except.ok (endGroup cfg m) = Except.ok (ε := Stop) m' := hs
          cases hs
          exact endGroup_follows hsize h
      | listen comm d =>
          have hs : (if d < cfg.root then startListenThread cfg m d comm else .error .notEnabled) =
              .ok m' := hs
          split at hs
          · rename_i hd
            exact startListenThread_follows h hd hs
          · cases hs
  | peer d a =>
      have hs : (if d < cfg.root then stepPeer cfg m d a else .error .notEnabled) = .ok m' := hs
      split at hs
      · rename_i hd
        cases a with
        | sendSignal i => exact sendSignalToRoot_follows h hd hs
        | nonRootNccl ready now => exact runNonRootNcclLoopOnce_follows h hd hs
        | copyListen => exact runNonRootCopyListenLoopOnce_follows h hd hs
      · cases hs

/-- The states runs arrive at in which a device has one task of a key at a time. -/
def Runs (cfg : Config) : Machine → Prop :=
  Reachable (Started cfg) (Guarded OncePerKey fun m a m' => step cfg m a = .ok m')

theorem Started.sound (h : Started cfg m) : m.Sound cfg := by
  obtain ⟨p, hp, rfl⟩ := h
  constructor
  · intro d
    exact .start ⟨p d, hp d, rfl⟩
  · intro d issue hissue
    cases hissue
  · intro d k
    exact Nat.zero_le 1
  · intro t ht
    cases ht
  · intro d t ht
    rcases ht with ht | ht
    · cases ht
    · cases ht
  · intro d x hx
    cases hx
  · intro comm d _ msg hmsg
    cases hmsg
  · intro d _ msg hmsg
    cases hmsg
  · intro d _ msg hmsg
    cases hmsg

theorem Started.view_eq (h : Started cfg m) (k : ℕ) : m.view cfg k = KeyState.start := by
  obtain ⟨p, hp, rfl⟩ := h
  refine KeyState.ext rfl rfl ?_ rfl rfl rfl
  funext d signal
  exact ite_self 0

theorem Runs.invariant (hsize : 2 ≤ cfg.localSize) (h : Runs cfg m) :
    m.Sound cfg ∧ ∀ k, (m.view cfg k).Inv cfg.root k := by
  refine Reachable.invariant
    (P := fun m => m.Sound cfg ∧ ∀ k, (m.view cfg k).Inv cfg.root k) ?_ ?_ h
  · intro m hm
    refine ⟨hm.sound, ?_⟩
    intro k
    rw [hm.view_eq]
    exact KeyState.inv_start cfg.root k
  · intro m a m' _ hm hs
    obtain ⟨hsound, hkeys⟩ := hm
    obtain ⟨hsound', hview⟩ := step_follows hsize hsound hs.1 hs.2
    refine ⟨hsound', ?_⟩
    intro k
    rcases hview k with hsame | hstep
    · rw [hsame]
      exact hkeys k
    · exact (hkeys k).step hstep

end Runs

/-! ### What a signal finds

From the view of a key back to the tables and queues of a device.  A task in a queue is found by
its key only if no task before it waits for an event, which none does behind the first stage.
-/

section Finds

variable {cfg : Config} {m : Machine} {d : ℕ}

theorem exists_addReadyCount {rt : ReadyTable} {key : ℕ} (h : rt.readyTable key < rt.readyCount) :
    ∃ rt', rt.addReadyCount key = .ok rt' := by
  unfold ReadyTable.addReadyCount
  rw [check_eq (decide_eq_true h)]
  exact ⟨_, rfl⟩

/-- A queued task of a key is found when no task before it waits for an event. -/
theorem exists_findKey (ready : ℕ → Bool) (key : ℕ) {ts : List Task}
    (hevents : ∀ u ∈ ts, u.readyEvent = none) (hkey : ∃ t ∈ ts, t.key = key) :
    ∃ found, ScheduledQueue.findKey ready key ts = .ok (some found) := by
  induction ts with
  | nil =>
      obtain ⟨t, ht, _⟩ := hkey
      cases ht
  | cons u ts ih =>
      have hready : ScheduledQueue.isReady ready u = true := by
        unfold ScheduledQueue.isReady
        rw [hevents u List.mem_cons_self]
        rfl
      unfold ScheduledQueue.findKey
      rw [check_eq hready]
      by_cases hu : u.key = key
      · exact ⟨(u, ts), if_pos hu⟩
      · obtain ⟨t, ht, htkey⟩ := hkey
        have ht : t ∈ ts := by
          rcases List.mem_cons.mp ht with heq | ht
          · exact absurd (heq ▸ htkey) hu
          · exact ht
        obtain ⟨found, hfound⟩ :=
          ih (fun v hv => hevents v (List.mem_cons_of_mem _ hv)) ⟨t, ht, htkey⟩
        refine ⟨(found.1, u :: found.2), ?_⟩
        change (if u.key = key then _ else _) = _
        rw [if_neg hu, hfound]
        rfl

theorem getTaskOf_of_findKey {q : ScheduledQueue} {ready : ℕ → Bool} {key : ℕ}
    {found : Task × List Task} (hsched : q.isScheduled = false)
    (hfound : ScheduledQueue.findKey ready key q.sq = .ok (some found)) :
    q.getTaskOf ready key =
      .ok (some ({ found.1 with readyEvent := none }, { q with sq := found.2 })) := by
  have hcheck : check (!q.isScheduled) = .ok () := by
    rw [hsched]
    rfl
  unfold ScheduledQueue.getTaskOf
  rw [hcheck, hfound]
  rfl

/-- The task of a key is in the queue its position says. -/
theorem Sound.mem_queue (h : m.Sound cfg) {k : ℕ} {op : QueueType} {rest : List QueueType}
    (hposition : (m.pipeline d).position k = (op :: rest, false)) :
    ∃ t ∈ ((m.pipeline d).queues op).sq, t.key = k := by
  unfold Pipeline.position at hposition
  cases hactive : active k (m.pipeline d).places with
  | nil =>
      rw [hactive] at hposition
      cases hposition
  | cons x l =>
      rw [hactive] at hposition
      obtain ⟨hlist, htaken⟩ := Prod.mk.inj hposition
      have hx : x ∈ active k (m.pipeline d).places := by
        rw [hactive]
        exact List.mem_cons_self
      obtain ⟨hplace, hcond⟩ := List.mem_filter.mp hx
      obtain ⟨hisActive, hkey⟩ := Bool.and_eq_true_iff.mp hcond
      obtain ⟨call, issue, hstands⟩ := (h.reachable d).inv.stands x hplace
      obtain ⟨pl, t⟩ := x
      cases pl with
      | adding c => cases hisActive
      | taken => cases htaken
      | queue op' =>
          have hhead := hstands.queue op' rfl
          dsimp only at hhead hlist
          rw [hlist] at hhead
          obtain rfl := Option.some.inj hhead
          refine ⟨t, ?_, of_decide_eq_true hkey⟩
          rcases List.mem_append.mp hplace with hplace | hplace
          · rcases List.mem_append.mp hplace with hplace | hplace
            · obtain ⟨c, _, hplace⟩ := List.mem_flatMap.mp hplace
              obtain ⟨u, _, heq⟩ := List.mem_map.mp hplace
              cases heq
            · obtain ⟨op', _, hplace⟩ := List.mem_flatMap.mp hplace
              obtain ⟨u, hu, heq⟩ := List.mem_map.mp hplace
              cases heq
              exact hu
          · obtain ⟨u, _, heq⟩ := List.mem_map.mp hplace
            cases heq

/-- Past its first stage no task of a queue waits for an event. -/
theorem Sound.readyEvent_eq_none (h : m.Sound cfg) (hd : d < cfg.root) {op : QueueType}
    (hop : op ≠ .coordinateReduce) {u : Task} (hu : u ∈ ((m.pipeline d).queues op).sq) :
    u.readyEvent = none := by
  rcases (h.reachable d).eventsGone _ (mem_places_of_queue hu) with
    hnone | ⟨_, issue, hissue, hlist⟩
  · exact hnone
  · have hhead := h.head_of_queue hu
    have hne : d ≠ cfg.root := Nat.ne_of_lt hd
    dsimp only at hlist
    rcases h.stages d issue hissue with hstages | ⟨hroot, _⟩
    · rw [hlist, hstages, stagesFor, if_neg hne] at hhead
      exact absurd (Option.some.inj hhead).symm hop
    · exact absurd hroot hne

/-- A device that is told to make a call has the task in its queue, and nothing to wait for. -/
theorem Sound.exists_getTaskOf (h : m.Sound cfg) (hkeys : ∀ k, (m.view cfg k).Inv cfg.root k)
    (hd : d < cfg.root) {msg : CommMsg} (hmsg : msg ∈ m.inFlight .nccl cfg.root d) {op : QueueType}
    (hop : stageOfCall msg.signal = some op) (ready : ℕ → Bool) :
    ∃ t q, ((m.pipeline d).queues op).getTaskOf ready msg.key = .ok (some (t, q)) := by
  have hcoming : 0 < (m.view cfg msg.key).coming d msg.signal := by
    have hpos := signalsOf_pos hmsg
    have hne : msg.signal ≠ .doGroup := by
      intro heq
      rw [heq] at hop
      cases hop
    unfold view
    dsimp only
    rw [if_neg hne]
    omega
  obtain ⟨rest, hposition⟩ := (hkeys msg.key).position_of_coming hd hop hcoming
  have hop' : op ≠ .coordinateReduce := by
    rcases KeyState.Inv.stageOfCall_eq hop with rfl | rfl
    · decide
    · decide
  have hrole : (cfg.setup d).role.isSignalRoot = false := decide_eq_false (Nat.ne_of_lt hd)
  obtain ⟨found, hfound⟩ := exists_findKey ready msg.key
    (fun u hu => h.readyEvent_eq_none hd hop' hu) (h.mem_queue hposition)
  refine ⟨{ found.1 with readyEvent := none },
    { (m.pipeline d).queues op with sq := found.2 }, ?_⟩
  exact getTaskOf_of_findKey ((h.reachable d).not_isScheduled hrole op) hfound

/-- What is said of the record of one key is said of the whole record. -/
theorem inOrder_of_filter {n k : ℕ} {log : List Event}
    (h : Always (KeyState.InOrder n k) (log.filter fun e => decide (e.key = k))) :
    Always (KeyState.InOrder n k) log := by
  intro e past hp
  have hbegun (d : ℕ) : begunCount (past.filter fun e => decide (e.key = k)) d k =
      begunCount past d k := List.count_filter (decide_eq_true rfl)
  have hfinished (d : ℕ) (op : QueueType) :
      finishedCount (past.filter fun e => decide (e.key = k)) d op k = finishedCount past d op k :=
    List.count_filter (decide_eq_true rfl)
  constructor
  · intro op he hop d hd
    subst he
    have hin := (h.of_filter hp (decide_eq_true rfl)).1 op rfl hop d hd
    rwa [hbegun, hfinished] at hin
  · intro d hd he
    subst he
    have hin := (h.of_filter hp (decide_eq_true rfl)).2 d hd rfl
    rwa [hbegun, hfinished] at hin

/-- Room in the table of a view is room in the table of the device. -/
theorem Sound.exists_addReadyCount (h : m.Sound cfg) (hsize : 2 ≤ cfg.localSize) {k : ℕ}
    {name : TableName} (hlt : (m.view cfg k).table d name < KeyState.readyAt cfg.root name) :
    ∃ rt, ((m.pipeline d).tables name).addReadyCount k = .ok rt := by
  apply Machine.exists_addReadyCount
  rw [(h.reachable d).readyCount name]
  have hcount : KeyState.readyAt cfg.root name = cfg.readyCount name := by
    unfold Config.readyCount KeyState.readyAt Config.root
    cases name <;> dsimp only <;> omega
  rw [hcount] at hlt
  exact hlt

/--
**Every signal comes in its turn.** It finds its count short of what it waits for, or the task
it is to be called for in the queue, and nothing is pushed or copied back before its round.

All signals on their way are covered, of any key, in any order in which they may be read.
-/
theorem signals_in_turn (hsize : 2 ≤ cfg.localSize) (h : Runs cfg m) :
    (∀ comm, ∀ d < cfg.root, ∀ msg ∈ m.inFlight comm d cfg.root, ∃ name rt,
        tableOfSignal msg.signal = some name ∧
          ((m.pipeline cfg.root).tables name).addReadyCount msg.key = .ok rt) ∧
      (∀ d < cfg.root, ∀ msg ∈ m.inFlight .basic cfg.root d, msg.signal = .doCopyH2D ∧
        ∃ rt, ((m.pipeline d).tables .copy).addReadyCount msg.key = .ok rt) ∧
      (∀ d < cfg.root, ∀ msg ∈ m.inFlight .nccl cfg.root d, msg.signal = .doGroup ∨
        ∃ op, stageOfCall msg.signal = some op ∧ ∀ ready, ∃ t q,
          ((m.pipeline d).queues op).getTaskOf ready msg.key = .ok (some (t, q))) ∧
      ∀ k, Always (KeyState.InOrder cfg.root k) m.log := by
  obtain ⟨hsound, hkeys⟩ := h.invariant hsize
  refine ⟨?_, ?_, ?_, ?_⟩
  · intro comm d hd msg hmsg
    obtain ⟨name, hname⟩ := hsound.toRoot comm d hd msg hmsg
    have hsending : 0 < (m.view cfg msg.key).sending d msg.signal := by
      have hpos := signalsOf_pos hmsg
      unfold view
      dsimp only
      cases comm with
      | basic => omega
      | nccl => omega
    obtain ⟨rt, hrt⟩ :=
      hsound.exists_addReadyCount hsize ((hkeys msg.key).table_lt hd hname hsending)
    exact ⟨name, rt, hname, hrt⟩
  · intro d hd msg hmsg
    have hsignal := (hsound.toCopy d hd msg hmsg).2
    have hcoming : 0 < (m.view cfg msg.key).coming d .doCopyH2D := by
      have hpos := signalsOf_pos hmsg
      rw [hsignal] at hpos
      unfold view
      dsimp only
      rw [if_neg (by decide)]
      omega
    exact ⟨hsignal, hsound.exists_addReadyCount hsize ((hkeys msg.key).copy_lt_one hd hcoming)⟩
  · intro d hd msg hmsg
    rcases (hsound.toCall d hd msg hmsg).2 with hgroup | ⟨op, hop⟩
    · exact .inl hgroup
    · exact .inr ⟨op, hop, hsound.exists_getTaskOf hkeys hd hmsg hop⟩
  · intro k
    exact inOrder_of_filter (hkeys k).inOrder

end Finds

/-! ### Two devices -/

/-- Two devices, and one tensor of one partition. -/
def twoDevices : Config where
  localSize := 2
  partitionBytes := 4096
  schedulingCredit := none
  sort := .insertion
  isTrace := false
  startStep := 0
  endStep := 0
  context _ _ := ⟨"t", [7], List.nodup_singleton 7, 0⟩

/-- The task of a device, with what is left of its stages. -/
def twoDevicesTask (queueList : List QueueType) : Task :=
  { partitionEntry 4096 4096 0
      (tensorEntry (twoDevices.setup 0) (manyPartsArgs 1) 0 queueList) 0 with
    key := 7
    context := 0
    part := 0 }

instance (m : Machine) : ∀ a, Decidable (m.OncePerKey a)
  | .device d (.addNext call) =>
    match h : (m.pipeline d).adding.getD call [] with
    | [] => .isTrue (by simp only [OncePerKey, h])
    | t :: _ =>
      decidable_of_iff (active t.key (m.pipeline d).places = []) (by simp only [OncePerKey, h])
  | .device _ (.enqueueTensor _ _) | .device _ (.getTask _ _ _) | .device _ (.finish _ _)
  | .device _ (.syncNccl _) | .device _ (.complete _ _) | .root _ | .peer _ _ => .isTrue trivial

/-- The root has called for a key the other device has announced. -/
theorem signals_in_turn_two : ∃ m, Runs twoDevices m ∧
    m.inFlight .nccl 1 0 = [⟨1, .doReduce, 7⟩] ∧ ∀ ready, ∃ t q,
      ((m.pipeline 0).queues .reduce).getTaskOf ready 7 = .ok (some (t, q)) := by
  have hrun : (run (fun m a => if m.OncePerKey a then step twoDevices m a else .error .notEnabled)
      (start twoDevices fun _ => Profile.init)
      [.device 0 (.enqueueTensor (manyPartsArgs 1) 0), .device 0 (.addNext 0),
        .device 0 (.getTask .coordinateReduce (fun _ => true) 0),
        .device 0 (.finish (twoDevicesTask peerStages) 0),
        .peer 0 (.sendSignal 0), .root (.listen .nccl 0),
        .device 1 (.enqueueTensor (manyPartsArgs 1) 0), .device 1 (.addNext 0),
        .device 1 (.getTask .reduce (fun _ => true) 0)]).toOption.map
      (fun m => m.inFlight .nccl 1 0) = some [⟨1, .doReduce, 7⟩] := by
    decide +kernel
  obtain ⟨m, hm, hmsgs⟩ := Option.map_eq_some_iff.mp hrun
  have hruns : Runs twoDevices m :=
    reachable_of_guarded_run _ (.start ⟨fun _ => Profile.init, fun _ => rfl, rfl⟩)
      (toOption_eq_some hm)
  refine ⟨m, hruns, hmsgs, ?_⟩
  have hall := (signals_in_turn (by decide) hruns).2.2.1
  rcases hall 0 (by decide) ⟨1, .doReduce, 7⟩
      (by rw [show twoDevices.root = 1 from rfl, hmsgs]; simp)
    with hgroup | ⟨op, hop, hfound⟩
  · cases hgroup
  · cases hop
    exact hfound

end Machine

end DeepInc.Worker
