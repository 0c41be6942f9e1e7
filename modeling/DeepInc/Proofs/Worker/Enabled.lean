/-
What the threads of a machine can do.

A machine whose devices are not through should be able to do something.  Three kinds of things
could stand in the way.  A check could fail, which ends a process.  A loop could wait for a task
that does not come, because the queue has none that is ready or there are no credits for it.
And devices could wait for each other, in NCCL or for a signal.

A device whose runs are not traced passes all checks that are left: every task has a name and a
counter, and what a loop has it can hand back.  Credits come back when tasks are finished, and
when no loop has a task there are credits for any.

Devices do not wait for each other in a circle.  As long as a signal is on its way it can be
heard, and as long as a loop has a task it can go on with it, but for one case: a task in a NCCL
call that other devices have not made yet.  They have all made it when no signal is on its way
and no group is open, because the calls of the root are those of everybody (`Calls`); and before
that there is a signal to hear or a group to end.  When all this is done and nobody has a task
in hand, what is left waits in queues, and `KeyProgress.lean` says which of it can be taken.
-/
import DeepInc.Lib.Fair
import DeepInc.Proofs.Worker.Calls
import DeepInc.Proofs.Worker.KeyProgress
import DeepInc.Proofs.Worker.Tracing

namespace DeepInc.Worker

open Transition Outcome

/-! ### Nothing is traced

The profile of a tensor is only written while its flag is set, and the flag is set only when
tracing is on.  Without it the checks on the recorded times are not reached.
-/

namespace Profile

variable {p : Profile} {now : ℤ}

theorem recorderTs_untraced (h : p.profileFlag = false) (t : Task) : p.recorderTs t now = .ok p := by
  unfold recorderTs
  rw [h]
  rfl

theorem finishStage_untraced (h : p.profileFlag = false) (key : ℕ) (op : QueueType) :
    p.finishStage key op now = .ok p := by
  unfold finishStage
  rw [h]
  rfl

theorem finishRound_untraced (h : p.profileFlag = false) : p.finishRound now = .ok p := by
  unfold finishRound
  rw [h]
  rfl

theorem setProfileFlag_untraced {setup : Setup} (h : setup.isTrace = false) (p : Profile) :
    p.setProfileFlag setup = .ok { p with profileFlag := false } := by
  unfold setProfileFlag
  rw [h]
  rfl

end Profile

namespace Pipeline

variable {setup : Setup} {s s' : Pipeline}

/-- The profile of no tensor is being recorded. -/
def Untraced (s : Pipeline) : Prop := ∀ n, (s.profile n).profileFlag = false

/-- A profile is written, and nothing is recorded in it. -/
theorem Untraced.update (h : s.Untraced) {n : ℕ} {p : Profile}
    (hprofile : s'.profile = Function.update s.profile n p) (hp : p.profileFlag = false) :
    s'.Untraced := by
  intro n'
  rw [hprofile, Function.update_apply]
  split
  · exact hp
  · exact h n'

theorem Untraced.step (htrace : setup.isTrace = false) (h : s.Untraced) {a : Act}
    (hs : s.step setup a = .ok s') : s'.Untraced := by
  have hsame {p p' : Profile} {n : ℕ} (hp : Except.ok (ε := Stop) (s.profile n) = .ok p)
      (hp' : p.profileFlag = p'.profileFlag) : p'.profileFlag = false := by
    rw [← hp', ← Except.ok.inj hp]
    exact h n
  cases step_effect hs with
  | quiet _ _ _ _ _ _ hprofile => rw [Untraced, hprofile]; exact h
  | enqueued _ _ _ _ _ _ _ _ _ _ _ _ _ hprofile =>
      exact h.update hprofile ((Profile.recordRound_spec _ _ _).1.trans (h _))
  | skipped _ _ _ _ _ _ _ _ _ hprofile => rw [Untraced, hprofile]; exact h
  | added _ _ _ _ _ _ _ _ _ _ _ hprofile => rw [Untraced, hprofile]; exact h
  | got _ _ _ _ _ _ _ _ _ _ _ _ _ _ hp hprofile =>
      rw [Profile.recorderTs_untraced (h _)] at hp
      exact h.update hprofile (hsame hp rfl)
  | passed _ _ _ _ _ _ _ _ _ _ _ _ _ _ hp hprofile =>
      rw [Profile.finishStage_untraced (h _)] at hp
      exact h.update hprofile (hsame hp rfl)
  | counted _ _ _ _ _ _ _ _ _ _ _ _ _ hp hprofile =>
      rw [Profile.finishStage_untraced (h _)] at hp
      exact h.update hprofile (hsame hp rfl)
  | completed _ _ _ _ _ _ _ _ _ hphase =>
      rcases hphase with ⟨_, _, hp, hprofile, _⟩ | ⟨_, hprofile, _⟩ | ⟨_, _, hp, hprofile, _⟩
      · rw [Profile.finishRound_untraced (h _)] at hp
        exact h.update hprofile (hsame hp rfl)
      · exact h.update hprofile (h _)
      · rw [Profile.setProfileFlag_untraced htrace] at hp
        obtain rfl := Except.ok.inj hp
        exact h.update hprofile rfl

theorem Reachable.untraced (htrace : setup.isTrace = false) (h : Pipeline.Reachable setup s) :
    s.Untraced := by
  refine Transition.Reachable.invariant (P := Pipeline.Untraced) ?_ ?_ h
  · rintro s ⟨p, hp, rfl⟩ n
    rw [Profile.setProfileFlag_untraced htrace] at hp
    obtain rfl := Except.ok.inj hp
    rfl
  · exact fun s a s' _ huntraced hs => huntraced.step htrace hs

/-! ### Tasks have names -/

/-- What is in a queue or with a loop has a name. -/
def Named (s : Pipeline) : Prop :=
  ∀ x ∈ s.places, x.1.isActive = true → x.2.tensorName ≠ ""

/-- A task has moved that has a name, or had one. -/
theorem Named.of_move (h : s.Named) {x y : Place × Task} {R : List (Place × Task)}
    (hbefore : s.places.Perm (x :: R)) (hafter : s'.places.Perm (y :: R))
    (hy : y.2.tensorName ≠ "") : s'.Named := by
  intro z hz hactive
  rcases List.mem_cons.mp (hafter.mem_iff.mp hz) with rfl | hz
  · exact hy
  · exact h z (hbefore.mem_iff.mpr (List.mem_cons_of_mem _ hz)) hactive

theorem addTask_named {sort : TaskSort} {q q' : ScheduledQueue} {t : Task}
    (h : q.addTask sort t = .ok q') : t.tensorName ≠ "" := by
  unfold ScheduledQueue.addTask at h
  obtain ⟨_, hcheck, -⟩ := bind_eq_ok h
  exact of_decide_eq_true (check_eq_ok hcheck)

theorem Named.step (h : s.Named) {a : Act} (hs : s.step setup a = .ok s') : s'.Named := by
  have hsame (hplaces : s'.places = s.places) : s'.Named := by
    rw [Named, hplaces]
    exact h
  cases step_effect hs with
  | quiet _ hplaces => exact hsame hplaces
  | enqueued _ _ _ tasks _ _ _ _ hplaces =>
      intro x hx hactive
      rcases List.mem_append.mp (hplaces.mem_iff.mp hx) with hx | hx
      · obtain ⟨t, -, rfl⟩ := List.mem_map.mp hx
        cases hactive
      · exact h x hx hactive
  | skipped _ _ _ _ hplaces => exact hsame hplaces
  | added call op t R hstage hbefore hafter =>
      obtain ⟨t', rest, op', q, hadding, -, hq, rfl⟩ := addNext_cases hs
      intro x hx hactive
      obtain ⟨R', hbefore', hafter'⟩ := places_addNext hadding hq
      rcases List.mem_cons.mp (hafter'.mem_iff.mp hx) with rfl | hx
      · exact addTask_named hq
      · exact h x (hbefore'.mem_iff.mpr (List.mem_cons_of_mem _ hx)) hactive
  | got _ op t t' _ _ _ ht' hbefore hafter =>
      have hname := h (.queue op, t) (hbefore.mem_iff.mpr List.mem_cons_self) rfl
      refine h.of_move hbefore hafter ?_
      rw [ht']
      exact hname
  | passed _ _ _ t _ _ _ _ hbefore hafter =>
      have hname := h (.taken, t) (hbefore.mem_iff.mpr List.mem_cons_self) rfl
      exact h.of_move hbefore hafter hname
  | counted _ _ _ _ _ _ _ _ hbefore hafter =>
      exact fun x hx => h x (hbefore.mem_iff.mpr (List.mem_cons_of_mem _ (hafter.mem_iff.mp hx)))
  | completed _ _ _ _ hplaces => exact hsame hplaces

theorem Reachable.named (h : Pipeline.Reachable setup s) : s.Named := by
  refine Transition.Reachable.invariant (P := Pipeline.Named) ?_ ?_ h
  · rintro s ⟨p, -, rfl⟩ x hx
    cases hx
  · exact fun s a s' _ hnamed hs => hnamed.step hs

/-! ### Taking and handing back -/

theorem exists_addTask (sort : TaskSort) {t : Task} (q : ScheduledQueue) (ht : t.tensorName ≠ "") :
    ∃ q', q.addTask sort t = .ok q' := by
  unfold ScheduledQueue.addTask
  rw [check_eq (decide_eq_true ht)]
  exact ⟨_, rfl⟩

theorem exists_takeFirst {α : Type} {p : α → Bool} {l : List α} (h : ∃ a ∈ l, p a = true) :
    ∃ r, takeFirst p l = some r := by
  induction l with
  | nil =>
      obtain ⟨a, ha, -⟩ := h
      cases ha
  | cons b l ih =>
      unfold takeFirst
      by_cases hb : p b = true
      · exact ⟨_, if_pos hb⟩
      · obtain ⟨a, ha, hp⟩ := h
        rcases List.mem_cons.mp ha with rfl | ha
        · exact absurd hp hb
        · obtain ⟨r, hr⟩ := ih ⟨a, ha, hp⟩
          rw [if_neg hb, hr]
          exact ⟨_, rfl⟩

/-- A loop takes what may be taken. -/
theorem exists_take (h : s.Untraced) (op : QueueType) (q : ScheduledQueue) (t : Task) (now : ℤ) :
    ∃ s', take s op q t now = .ok s' := by
  unfold take
  rw [Profile.recorderTs_untraced (h t.context)]
  exact ⟨_, rfl⟩

/-- A loop hands back what it has. -/
theorem exists_finishOrProceed (h : Pipeline.Reachable setup s) (huntraced : s.Untraced) {t : Task}
    (ht : t ∈ s.taken) (now : ℤ) : ∃ s', finishOrProceed setup s t now = .ok s' := by
  have hplace := mem_places_of_taken ht
  obtain ⟨call, issue, hstands⟩ := h.inv.stands _ hplace
  have hname : check (decide (t.tensorName ≠ "")) = .ok () :=
    check_eq (decide_eq_true (h.named _ hplace rfl))
  obtain ⟨op, rest, hlist⟩ := List.exists_cons_of_ne_nil hstands.left
  have hlist : t.queueList = op :: rest := hlist
  have hcounter : t.counterPtr = some call := hstands.counter
  unfold finishOrProceed
  rw [if_pos ht, hlist]
  dsimp only
  change ∃ s', ((Profile.finishStage (s.profile t.context) t.key op now) >>= fun p => _) = .ok s'
  rw [Profile.finishStage_untraced (huntraced t.context)]
  cases rest with
  | cons next rest =>
      obtain ⟨q, hq⟩ := exists_addTask setup.sort
        ((reportTask s t op (s.profile t.context)).queues next)
        (t := { t with queueList := next :: rest }) (h.named _ hplace rfl)
      change ∃ s', (orStop (check (decide (t.tensorName ≠ ""))) >>= fun _ =>
        orStop (((reportTask s t op (s.profile t.context)).queues next).addTask setup.sort
          { t with queueList := next :: rest }) >>= fun q => _) = .ok s'
      rw [hname, hq]
      exact ⟨_, rfl⟩
  | nil =>
      change ∃ s', finishPart (reportTask s t op (s.profile t.context)) t = .ok s'
      unfold finishPart
      rw [hcounter]
      dsimp only
      split
      · rw [hname]
        exact ⟨_, rfl⟩
      · exact ⟨_, rfl⟩

/-! ### Credits -/

theorem Reachable.isScheduled_eq (h : Pipeline.Reachable setup s) (op : QueueType) :
    (s.queues op).isScheduled = (ScheduledQueue.init op setup.role setup.schedulingCredit
      setup.partitionBytes).isScheduled := by
  refine Transition.Reachable.invariant (P := fun s => (s.queues op).isScheduled =
    (ScheduledQueue.init op setup.role setup.schedulingCredit setup.partitionBytes).isScheduled)
    ?_ ?_ h
  · rintro s ⟨p, -, rfl⟩
    rfl
  · exact fun s a s' _ hsched hs => (step_lends hs).1.trans hsched

/-- There are credits for every task, as long as no loop has one. -/
theorem Reachable.credited (hbytes : setup.partitionBytes < 2 ^ 31)
    (hcredit : ∀ c ∈ setup.schedulingCredit, 0 ≤ c ∧ c < 2 ^ 31) (h : Pipeline.Reachable setup s)
    (hnone : s.taken = []) {op : QueueType} {t : Task} (ht : t ∈ (s.queues op).sq) :
    (!(s.queues op).isScheduled || decide (t.len ≤ (s.queues op).credits)) = true := by
  cases hsched : (s.queues op).isScheduled with
  | false => rfl
  | true =>
      have hinit := (h.isScheduled_eq op).symm.trans hsched
      unfold ScheduledQueue.init at hinit
      obtain ⟨rfl, hroot, hpos⟩ := of_decide_eq_true hinit
      cases hc : setup.schedulingCredit with
      | none =>
          rw [hc] at hpos
          exact absurd rfl hpos
      | some n =>
          obtain ⟨hlow, hhigh⟩ := hcredit n hc
          rw [hc] at hpos
          dsimp only at hpos
          have hn : (n.toNat : ℤ) = n := Int.toNat_of_nonneg hlow
          have hpositive : 1 ≤ n.toNat := by
            by_contra hzero
            have : n = 0 := by omega
            rw [this] at hpos
            exact hpos rfl
          have hconserves := Pipeline.Reachable.conserves (c := n.toNat) hroot (by rw [hc, hn])
            hpositive (by omega) hbytes h
          have hsum := hconserves.sum
          rw [hnone] at hsum
          have hfull : (s.queues .reduce).credits = setup.partitionBytes * n.toNat := hsum
          have hlen : t.len ≤ setup.partitionBytes := h.lensBounded _ (mem_places_of_queue ht)
          refine decide_eq_true (hlen.trans ?_)
          rw [hfull]
          exact Nat.le_mul_of_pos_right _ hpositive

end Pipeline

namespace Machine

/-! ### Steps that can be taken

A step that can be taken has to change something to count, and that it does is seen from the
record: whatever is written down was not there before.
-/

/-- The machine goes on with what was begun: nothing is enqueued, and nothing is added. -/
def GoesOn : Act → Prop
  | .device _ (.enqueueTensor _ _) => False
  | .device _ (.addNext _) => False
  | _ => True

/-- No tensor has a compressor. -/
def Config.Plain (cfg : Config) : Prop := ∀ d n, (cfg.context d n).compressors = 0

/-- When `SynchronizeEvents` returns, for the group a device is to synchronise. -/
abbrev Synchronized := Machine → ℕ → Prop

/-- A collective ends on all devices once all of them have called it, if not before. -/
def Synchronized.Completes (cfg : Config) (synchronized : Synchronized) : Prop :=
  ∀ m d, Runs cfg m → m.LaunchedByAll cfg d → synchronized m d

/-- A loop that synchronises NCCL calls waits for them. -/
def Waits (synchronized : Synchronized) (m : Machine) : Act → Prop
  | .device d (.syncNccl _) => m.ncclPipeline d = [] ∨ synchronized m d
  | _ => True

/-- The machine goes on. -/
def Works (cfg : Config) (synchronized : Synchronized) (m : Machine) (a : Act) (m' : Machine) :
    Prop :=
  GoesOn a ∧ Waits synchronized m a ∧ step cfg m a = .ok m'

section Enabled

variable {cfg : Config} {m m' : Machine} {d : ℕ} {synchronized : Synchronized}

/-- What is written down shows that something has changed. -/
theorem enabled_of_log {a : Act} {e : Event} (ha : GoesOn a) (hwaits : Waits synchronized m a)
    (hs : step cfg m a = .ok m') (hlog : m'.log = e :: m.log) :
    Enabled (Works cfg synchronized) m a := by
  refine ⟨m', ⟨ha, hwaits, hs⟩, fun heq => ?_⟩
  rw [heq] at hlog
  exact List.cons_ne_self _ _ hlog.symm

theorem device_step {a : DeviceAct} (hsize : 2 ≤ cfg.localSize) (hd : d ≤ cfg.root)
    (hs : stepDevice cfg m d a = .ok m') : step cfg m (.device d a) = .ok m' := by
  have hlt : d < cfg.localSize := by
    unfold Config.root at hd
    omega
  exact (if_pos hlt).trans hs

theorem peer_step {a : PeerAct} (hd : d < cfg.root) (hs : stepPeer cfg m d a = .ok m') :
    step cfg m (.peer d a) = .ok m' := (if_pos hd).trans hs

/-- A signal that is still to be sent can be sent. -/
theorem enabled_sendSignal (hd : d < cfg.root) (h : m.signalling d ≠ []) :
    ∃ a, Enabled (Works cfg synchronized) m a := by
  obtain ⟨⟨comm, msg⟩, rest, hlist⟩ := List.exists_cons_of_ne_nil h
  have hs : sendSignalToRoot cfg m d 0 = .ok
      { m.setInFlight comm d cfg.root (m.inFlight comm d cfg.root ++ [msg]) with
        signalling := Function.update m.signalling d ((m.signalling d).eraseIdx 0) } := by
    unfold sendSignalToRoot
    rw [hlist]
    rfl
  refine ⟨.peer d (.sendSignal 0), _, ⟨trivial, trivial, peer_step hd hs⟩, fun heq => ?_⟩
  have hsame := congrFun (congrArg Machine.signalling heq) d
  dsimp only at hsame
  rw [Function.update_self, hlist] at hsame
  exact List.cons_ne_self _ _ hsame.symm

/-- A signal to the root can be heard. -/
theorem Sound.enabled_listen (h : m.Sound cfg) (hkeys : ∀ k, (m.view cfg k).Inv cfg.root k)
    (hsize : 2 ≤ cfg.localSize) (hd : d < cfg.root) {comm : Comm}
    (hne : m.inFlight comm d cfg.root ≠ []) : ∃ a, Enabled (Works cfg synchronized) m a := by
  obtain ⟨msg, msgs, hmsgs⟩ := List.exists_cons_of_ne_nil hne
  have hmem : msg ∈ m.inFlight comm d cfg.root := by
    rw [hmsgs]
    exact List.mem_cons_self
  obtain ⟨name, hname⟩ := h.toRoot comm d hd msg hmem
  have hsending : 0 < (m.view cfg msg.key).sending d msg.signal := by
    have hpos := signalsOf_pos hmem
    unfold view
    dsimp only
    cases comm <;> omega
  obtain ⟨rt, hrt⟩ :=
    h.exists_addReadyCount hsize ((hkeys msg.key).table_lt hd hname hsending)
  have hlisten : ∃ m', startListenThread cfg m d comm = .ok m' ∧
      m'.log = .heard msg.signal d msg.key :: m.log := by
    unfold startListenThread
    rw [hmsgs]
    dsimp only
    rw [hname]
    change ∃ m', (((orStop (((m.pipeline cfg.root).tables name).addReadyCount msg.key)).map fun rt =>
      { m.pipeline cfg.root with
        tables := Function.update (m.pipeline cfg.root).tables name rt }) >>= fun s => _) =
      .ok m' ∧ _
    rw [hrt]
    exact ⟨_, rfl, rfl⟩
  obtain ⟨m', hs, hlog⟩ := hlisten
  exact ⟨.root (.listen comm d), enabled_of_log trivial trivial ((if_pos hd).trans hs) hlog⟩

/-- The other devices can hear that they may copy. -/
theorem Sound.enabled_copyListen (h : m.Sound cfg) (hkeys : ∀ k, (m.view cfg k).Inv cfg.root k)
    (hsize : 2 ≤ cfg.localSize) (hd : d < cfg.root) (hne : m.inFlight .basic cfg.root d ≠ []) :
    ∃ a, Enabled (Works cfg synchronized) m a := by
  obtain ⟨msg, msgs, hmsgs⟩ := List.exists_cons_of_ne_nil hne
  have hmem : msg ∈ m.inFlight .basic cfg.root d := by
    rw [hmsgs]
    exact List.mem_cons_self
  obtain ⟨hsrc, hsignal⟩ := h.toCopy d hd msg hmem
  have hcoming : 0 < (m.view cfg msg.key).coming d .doCopyH2D := by
    have hpos := signalsOf_pos hmem
    rw [hsignal] at hpos
    unfold view
    dsimp only
    rw [if_neg (by decide)]
    omega
  obtain ⟨rt, hrt⟩ := h.exists_addReadyCount hsize ((hkeys msg.key).copy_lt_one hd hcoming)
  have hlisten : ∃ m', runNonRootCopyListenLoopOnce cfg m d = .ok m' ∧
      m'.log = .heard .doCopyH2D d msg.key :: m.log := by
    unfold runNonRootCopyListenLoopOnce
    rw [hmsgs]
    dsimp only
    rw [check_eq (decide_eq_true hsrc), check_eq (decide_eq_true hsignal)]
    change ∃ m', (((orStop (((m.pipeline d).tables .copy).addReadyCount msg.key)).map fun rt =>
      { m.pipeline d with tables := Function.update (m.pipeline d).tables .copy rt }) >>=
        fun s => _) = .ok m' ∧ _
    rw [hrt]
    exact ⟨_, rfl, rfl⟩
  obtain ⟨m', hs, hlog⟩ := hlisten
  exact ⟨.peer d .copyListen, enabled_of_log trivial trivial (peer_step hd hs) hlog⟩

/-- A device can do what the root tells it to. -/
theorem Sound.enabled_nonRootNccl (h : m.Sound cfg) (hkeys : ∀ k, (m.view cfg k).Inv cfg.root k)
    (htrace : cfg.isTrace = false) (hd : d < cfg.root) (hne : m.inFlight .nccl cfg.root d ≠ []) :
    ∃ a, Enabled (Works cfg synchronized) m a := by
  obtain ⟨msg, msgs, hmsgs⟩ := List.exists_cons_of_ne_nil hne
  have hmem : msg ∈ m.inFlight .nccl cfg.root d := by
    rw [hmsgs]
    exact List.mem_cons_self
  obtain ⟨hsrc, hsignal⟩ := h.toCall d hd msg hmem
  refine ⟨.peer d (.nonRootNccl (fun _ => true) 0), ?_⟩
  rcases hsignal with hgroup | ⟨op, hop⟩
  · refine ⟨(m.setInFlight .nccl cfg.root d msgs).enqueueGroup d,
      ⟨trivial, trivial, peer_step hd ?_⟩,
      fun heq => ?_⟩
    · show runNonRootNcclLoopOnce cfg m d _ 0 = _
      unfold runNonRootNcclLoopOnce
      rw [hmsgs]
      dsimp only
      rw [check_eq (decide_eq_true hsrc)]
      show (if msg.signal = .doGroup then _ else _) = _
      rw [if_pos hgroup]
    · have hsame : (m.setInFlight .nccl cfg.root d msgs).inFlight .nccl cfg.root d =
          m.inFlight .nccl cfg.root d :=
        congrFun (congrFun (congrFun (congrArg Machine.inFlight heq) .nccl) cfg.root) d
      rw [hmsgs] at hsame
      have hmsgs' : msgs = msg :: msgs := (if_pos ⟨rfl, rfl, rfl⟩).symm.trans hsame
      exact List.cons_ne_self _ _ hmsgs'.symm
  · have hnot : msg.signal ≠ .doGroup := by
      intro hgroup
      rw [hgroup] at hop
      cases hop
    obtain ⟨t, q, hfound⟩ := h.exists_getTaskOf hkeys hd hmem hop fun _ => true
    obtain ⟨s, hs⟩ := Pipeline.exists_take ((h.reachable d).untraced htrace) op q t 0
    have hrun : runNonRootNcclLoopOnce cfg m d (fun _ => true) 0 =
        .ok ((((m.setInFlight .nccl cfg.root d msgs).setPipeline d s).addToGroup d t).record
          (.got d op t.key)) := by
      unfold runNonRootNcclLoopOnce
      rw [hmsgs]
      dsimp only
      rw [check_eq (decide_eq_true hsrc)]
      show (if msg.signal = .doGroup then _ else _) = _
      rw [if_neg hnot, hop]
      dsimp only
      show (orStop (((m.pipeline d).queues op).getTaskOf _ msg.key) >>= fun found => _) = _
      rw [hfound]
      show (Worker.take (m.pipeline d) op q t 0 >>= fun s => _) = _
      rw [hs]
      rfl
    exact enabled_of_log (e := .got d op t.key) trivial trivial (peer_step hd hrun) rfl

/-- A loop hands back a task it has. -/
theorem Sound.exists_finishTask (h : m.Sound cfg) (htrace : cfg.isTrace = false) {t : Task}
    (ht : t ∈ (m.pipeline d).taken) : ∃ op rest m', t.queueList = op :: rest ∧
      finishTask cfg m d 0 op t = .ok m' ∧ m'.log = .finished d op t.key :: m.log := by
  obtain ⟨op, rest, hlist⟩ := List.exists_cons_of_ne_nil (h.left (mem_places_of_taken ht)).1
  obtain ⟨s, hs⟩ := Pipeline.exists_finishOrProceed (h.reachable d)
    ((h.reachable d).untraced htrace) ht 0
  refine ⟨op, rest, (m.setPipeline d s).record (.finished d op t.key), hlist, ?_, rfl⟩
  unfold finishTask
  rw [hs]
  rfl

/-- A group whose calls have ended can be synchronised. -/
theorem Calls.enabled_sync (hcalls : m.Calls cfg) (h : m.Sound cfg) (hsize : 2 ≤ cfg.localSize)
    (htrace : cfg.isTrace = false) (hd : d ≤ cfg.root) (hne : m.ncclPipeline d ≠ [])
    (hsync : synchronized m d) :
    ∃ a, Enabled (Works cfg synchronized) m a := by
  obtain ⟨group, groups, hgroups⟩ := List.exists_cons_of_ne_nil hne
  refine ⟨.device d (.syncNccl 0), ?_⟩
  cases group with
  | nil =>
      refine ⟨{ m with ncclPipeline := Function.update m.ncclPipeline d groups },
        ⟨trivial, .inr hsync, device_step hsize hd ?_⟩, fun heq => ?_⟩
      · show runSyncNcclOnce cfg m d 0 = _
        unfold runSyncNcclOnce
        rw [hgroups]
      · have hsame : Function.update m.ncclPipeline d groups d = m.ncclPipeline d :=
          congrFun (congrArg Machine.ncclPipeline heq) d
        rw [Function.update_self, hgroups] at hsame
        exact List.cons_ne_self _ _ hsame.symm
  | cons t ts =>
      have hmem : t ∈ (m.pipeline d).taken.filter Task.called :=
        (hcalls.taken d).subset (by rw [hgroups]; simp)
      obtain ⟨op, rest, m₁, hlist, hfinish, hlog⟩ :=
        h.exists_finishTask htrace (List.mem_filter.mp hmem).1
      have hrun : runSyncNcclOnce cfg m d 0 = .ok { m₁ with
          ncclPipeline := Function.update m₁.ncclPipeline d (ts :: groups) } := by
        unfold runSyncNcclOnce
        rw [hgroups]
        dsimp only
        rw [hlist]
        dsimp only
        rw [hfinish]
        rfl
      exact enabled_of_log trivial (.inr hsync) (device_step hsize hd hrun) hlog

/-- The root can end a group it is at. -/
theorem enabled_endGroup (hne : m.group cfg.root ≠ []) : ∃ a, Enabled (Works cfg synchronized) m a := by
  have hend : endGroup cfg m =
      (m.broadcastSignal cfg .nccl ⟨cfg.root, .doGroup, 0⟩).enqueueGroup cfg.root := if_neg hne
  refine ⟨.root .endGroup, _, ⟨trivial, trivial, congrArg Except.ok hend⟩, fun heq => ?_⟩
  have hsame : Function.update m.group cfg.root [] cfg.root = m.group cfg.root :=
    congrFun (congrArg Machine.group heq) cfg.root
  rw [Function.update_self] at hsame
  exact hne hsame.symm

/-- Without a compressor nothing is compressed, so no count is restored by `SetReadyCount`. -/
theorem Sound.compressing_eq_nil (h : m.Sound cfg) (hplain : cfg.Plain) : m.compressing = [] := by
  rw [List.eq_nil_iff_forall_not_mem]
  intro t ht
  obtain ⟨htaken, hhead⟩ := h.compressing t ht
  obtain ⟨-, stages, hasks, hleft⟩ := h.asked (mem_places_of_taken htaken)
  have hmem : QueueType.compress ∈ stages := hleft.subset (List.mem_of_head? hhead)
  rcases hasks with rfl | ⟨-, -, n, hn⟩
  · rw [KeyState.stagesFor_root] at hmem
    exact absurd hmem (by decide)
  · exact hn (hplain cfg.root n)

/-- A loop that makes no calls can hand back what it has. -/
theorem Sound.enabled_finish (h : m.Sound cfg) (hsize : 2 ≤ cfg.localSize)
    (htrace : cfg.isTrace = false) (hd : d ≤ cfg.root) {t : Task}
    (ht : t ∈ (m.pipeline d).taken) (hcalled : t.called = false) (hnot : t ∉ m.compressing) :
    ∃ a, Enabled (Works cfg synchronized) m a := by
  obtain ⟨op, rest, m₁, hlist, hfinish, hlog⟩ := h.exists_finishTask htrace ht
  have hop : ¬(op = .reduce ∨ op = .broadcast ∨ t ∈ m.compressing) := by
    rw [called_eq (show t.queueList.head? = some op by rw [hlist]; rfl)] at hcalled
    rintro (hop | hop | hin)
    · exact of_decide_eq_false hcalled (.inl hop)
    · exact of_decide_eq_false hcalled (.inr hop)
    · exact hnot hin
  have hcoordinate : (coordinate m₁ d op t).log = m₁.log := by
    unfold coordinate
    split <;> rfl
  have hs : runFinish cfg m d 0 t = .ok (coordinate m₁ d op t) := by
    unfold runFinish
    rw [hlist]
    dsimp only
    rw [if_neg hop, hfinish]
    rfl
  exact ⟨.device d (.finish t 0),
    enabled_of_log trivial trivial (device_step hsize hd hs) (hcoordinate.trans hlog)⟩

/-- A loop can take a task that is ready, when there are credits for it. -/
theorem exists_takeTask {op : QueueType} {t : Task} {ready : ℕ → Bool}
    {body : Machine → Task → Machine}
    (hbody : ∀ m t, (body m t).log = m.log) (huntraced : (m.pipeline d).Untraced)
    (ht : t ∈ ((m.pipeline d).queues op).sq)
    (heligible : ((m.pipeline d).queues op).eligible ready
      (tableOf (cfg.setup d) (m.pipeline d) op) t = true) :
    ∃ m' e, takeTask cfg m d ready 0 op body = .ok m' ∧ m'.log = e :: m.log := by
  obtain ⟨r, hr⟩ := Pipeline.exists_takeFirst ⟨t, ht, heligible⟩
  unfold takeTask ScheduledQueue.getTask
  dsimp only
  rw [hr]
  dsimp only [Option.map_some]
  obtain ⟨s, hs⟩ := Pipeline.exists_take (s := setTable (cfg.setup d) (m.pipeline d) op
    ((tableOf (cfg.setup d) (m.pipeline d) op).map (·.clearReadyCount r.1.key)))
    (by
      obtain ⟨tables, htables⟩ := setTable_eq (cfg.setup d) (m.pipeline d) op
        ((tableOf (cfg.setup d) (m.pipeline d) op).map (·.clearReadyCount r.1.key))
      rw [htables]
      exact huntraced)
    op { (m.pipeline d).queues op with
      sq := r.2
      credits := if ((m.pipeline d).queues op).isScheduled then
        ((m.pipeline d).queues op).credits - r.1.len else ((m.pipeline d).queues op).credits }
    { r.1 with readyEvent := none } 0
  rw [hs]
  exact ⟨_, _, rfl, hbody _ _⟩

/-- The loop of a stage that can take a key takes a task. -/
theorem Sound.enabled_getTask (h : m.Sound cfg) {k : ℕ} (hkey : (m.view cfg k).Inv cfg.root k)
    (hsize : 2 ≤ cfg.localSize) (htrace : cfg.isTrace = false)
    (hbytes : cfg.partitionBytes < 2 ^ 31)
    (hcredit : ∀ c ∈ cfg.schedulingCredit, 0 ≤ c ∧ c < 2 ^ 31) (hd : d ≤ cfg.root)
    (hnone : (m.pipeline d).taken = []) {op : QueueType}
    (htakes : (m.view cfg k).Takes cfg.root d op) : ∃ a, Enabled (Works cfg synchronized) m a := by
  obtain ⟨⟨rest, hposition⟩, hloop, htable⟩ := htakes
  obtain ⟨t, ht, htkey⟩ := h.mem_queue hposition
  have heligible : ((m.pipeline d).queues op).eligible (fun _ => true)
      (tableOf (cfg.setup d) (m.pipeline d) op) t = true := by
    have hready : ScheduledQueue.isReady (fun _ => true) t = true := by
      unfold ScheduledQueue.isReady
      cases t.readyEvent <;> rfl
    unfold ScheduledQueue.eligible
    rw [hready, (h.reachable d).credited hbytes hcredit hnone ht, Bool.and_self, Bool.true_and]
    unfold tableOf
    cases hname : readyTableOf (cfg.setup d).role op with
    | none => rfl
    | some name =>
        have hcount := htable name hname
        have hfull : KeyState.readyAt cfg.root name = cfg.readyCount name := by
          unfold Config.readyCount KeyState.readyAt Config.root
          cases name <;> dsimp only <;> omega
        rw [hfull] at hcount
        refine decide_eq_true ?_
        rw [(h.reachable d).readyCount name, htkey]
        exact hcount
  have huntraced := (h.reachable d).untraced htrace
  have hlog {m' : Machine} (hm' : ∃ e, stepDevice cfg m d (.getTask op (fun _ => true) 0) = .ok m' ∧
      m'.log = e :: m.log) : ∃ a, Enabled (Works cfg synchronized) m a := by
    obtain ⟨e, hs, hlog⟩ := hm'
    exact ⟨.device d (.getTask op (fun _ => true) 0),
      enabled_of_log trivial trivial (device_step hsize hd hs) hlog⟩
  have htake {body : Machine → Task → Machine} (hbody : ∀ m t, (body m t).log = m.log)
      (hrun : stepDevice cfg m d (.getTask op (fun _ => true) 0) =
        takeTask cfg m d (fun _ => true) 0 op body) : ∃ a, Enabled (Works cfg synchronized) m a := by
    obtain ⟨m', e, hs, hm'⟩ := exists_takeTask hbody huntraced ht heligible
    exact hlog ⟨e, hrun.trans hs, hm'⟩
  obtain ⟨stages, hstages, hsuffix⟩ := hkey.stages d hd
  have hmem : op ∈ stages := by
    refine hsuffix.subset ?_
    rw [KeyState.left, hposition]
    exact List.mem_cons_self
  have hrun : stepDevice cfg m d (.getTask op (fun _ => true) 0) =
      runLoopOnce cfg m d (fun _ => true) 0 op := rfl
  unfold runLoopOnce at hrun
  by_cases hroot : d = cfg.root
  · rw [if_pos hroot] at hrun
    have hin : op ∈ rootStages ∨ op ∈ compressedStages := by
      rcases hstages with rfl | ⟨-, rfl⟩
      · rw [stagesFor, if_pos hroot] at hmem
        exact .inl hmem
      · exact .inr hmem
    cases op with
    | reduce | broadcast =>
        refine htake (fun m t => ?_) hrun
        dsimp only
        split <;> rfl
    | copyH2D =>
        refine htake (fun m t => ?_) hrun
        split <;> rfl
    | copyD2H | compress | push | pull | decompress =>
        refine htake (fun m t => ?_) hrun
        rfl
    | coordinateReduce | pcieReduce | coordinatePush | coordinateBroadcast =>
        exact absurd hin (by decide)
  · rw [if_neg hroot] at hrun
    have hin : op ∈ peerStages := by
      rcases hstages with rfl | ⟨heq, -⟩
      · rwa [stagesFor, if_neg hroot] at hmem
      · exact absurd heq hroot
    have hcall := hloop.resolve_left hroot
    cases op with
    | coordinateReduce | coordinatePush | coordinateBroadcast | copyD2H | copyH2D =>
        refine htake (fun m t => ?_) hrun
        rfl
    | reduce => exact absurd rfl hcall.1
    | broadcast => exact absurd rfl hcall.2
    | pcieReduce | compress | push | pull | decompress => exact absurd hin (by decide)

/-! ### Nobody waits for ever for a NCCL call

This is the one place where a device waits for others without a signal to say so.  That all
devices have launched as many calls is all that is known of the others, and all that is needed.
-/

/-- When no signal is on its way and no group is open, all devices have launched the same. -/
theorem Calls.launched_eq (hcalls : m.Calls cfg)
    (hnccl : ∀ d < cfg.root, m.inFlight .nccl cfg.root d = [])
    (hgroup : ∀ d ≤ cfg.root, m.group d = []) (hd : d ≤ cfg.root) :
    m.launched d = m.launched cfg.root := by
  rcases Nat.lt_or_eq_of_le hd with hlt | rfl
  · have htold := hcalls.told d hlt
    unfold made at htold
    rw [hnccl d hlt, hgroup d hd, hgroup cfg.root (Nat.le_refl _)] at htold
    exact htold
  · rfl

/-- Then all calls a device waits for are launched by all. -/
theorem Calls.launchedByAll (hcalls : m.Calls cfg)
    (hnccl : ∀ d < cfg.root, m.inFlight .nccl cfg.root d = [])
    (hgroup : ∀ d ≤ cfg.root, m.group d = []) (hd : d ≤ cfg.root) : m.LaunchedByAll cfg d := by
  intro d' hd'
  have hd' : d' ≤ cfg.root := Nat.le_sub_one_of_lt hd'
  have hhead : ((m.ncclPipeline d).headD []).length ≤ (m.ncclPipeline d).flatten.length := by
    cases m.ncclPipeline d with
    | nil => exact Nat.le_refl _
    | cons g groups =>
        rw [List.flatten_cons, List.length_append]
        exact Nat.le_add_right _ _
  calc m.synced d + ((m.ncclPipeline d).headD []).length
      ≤ m.launched d := Nat.add_le_add_left hhead _
    _ = m.launched cfg.root := hcalls.launched_eq hnccl hgroup hd
    _ = m.launched d' := (hcalls.launched_eq hnccl hgroup hd').symm

/-! ### A machine that can do nothing is done

The cases are taken in the order in which a device would get out of them: signals first, then
groups, then what the loops have, and in the end what is in the queues.
-/

/-- All devices have begun every key equally often. -/
def Level (cfg : Config) (m : Machine) : Prop :=
  ∀ k, ∀ d ≤ cfg.root, begunCount m.log d k = begunCount m.log cfg.root k

/-- No device has a task left that it has begun. -/
def Through (cfg : Config) (m : Machine) : Prop :=
  ∀ k, ∀ d ≤ cfg.root, (m.view cfg k).left d = []

/-- What a loop does not have is not taken. -/
theorem position_queued (h : (m.pipeline d).taken = []) (k : ℕ) :
    ((m.pipeline d).position k).2 = false := by
  unfold Pipeline.position
  cases hactive : active k (m.pipeline d).places with
  | nil => rfl
  | cons x l =>
      have hx : x ∈ active k (m.pipeline d).places := by
        rw [hactive]
        exact List.mem_cons_self
      refine decide_eq_false fun htaken => ?_
      have hmem : (.taken, x.2) ∈ (m.pipeline d).places := by
        rw [← htaken]
        exact (List.mem_filter.mp hx).1
      rw [mem_places_taken, h] at hmem
      cases hmem

/--
**As long as a device is not through, the machine can do something.**  This holds whenever all
devices have begun the same, whatever the order of keys and signals was so far.

If nothing can be done, then no signal is to be sent or heard, and no group is open.  So all
devices have launched the same NCCL calls, and none of them is left to synchronise.  No loop has
a task then, and every key of which something is left waits in a queue; on the device that is
furthest behind its loop can take it.
-/
theorem Runs.exists_enabled (hcompletes : synchronized.Completes cfg) (hplain : cfg.Plain)
    (hsize : 2 ≤ cfg.localSize) (htrace : cfg.isTrace = false)
    (hbytes : cfg.partitionBytes < 2 ^ 31)
    (hcredit : ∀ c ∈ cfg.schedulingCredit, 0 ≤ c ∧ c < 2 ^ 31) (h : Runs cfg m)
    (hlevel : m.Level cfg) (hleft : ¬m.Through cfg) : ∃ a, Enabled (Works cfg synchronized) m a := by
  obtain ⟨hsound, hkeys⟩ := h.invariant hsize
  have hcalls := h.calls hsize
  by_contra hnone
  have hsignalling : ∀ d < cfg.root, m.signalling d = [] := fun d hd =>
    by_contra fun hne => hnone (enabled_sendSignal hd hne)
  have htoRoot : ∀ comm, ∀ d < cfg.root, m.inFlight comm d cfg.root = [] := fun comm d hd =>
    by_contra fun hne => hnone (hsound.enabled_listen hkeys hsize hd hne)
  have hbasic : ∀ d < cfg.root, m.inFlight .basic cfg.root d = [] := fun d hd =>
    by_contra fun hne => hnone (hsound.enabled_copyListen hkeys hsize hd hne)
  have hnccl : ∀ d < cfg.root, m.inFlight .nccl cfg.root d = [] := fun d hd =>
    by_contra fun hne => hnone (hsound.enabled_nonRootNccl hkeys htrace hd hne)
  have hrootGroup : m.group cfg.root = [] := by_contra fun hne => hnone (enabled_endGroup hne)
  have hgroup : ∀ d ≤ cfg.root, m.group d = [] := by
    intro d hd
    rcases Nat.lt_or_eq_of_le hd with hlt | rfl
    · by_contra hne
      refine hcalls.opened d hlt ?_ hrootGroup
      rw [hnccl d hlt]
      exact hne
    · exact hrootGroup
  have hpipeline : ∀ d ≤ cfg.root, m.ncclPipeline d = [] := fun d hd =>
    by_contra fun hne => hnone (hcalls.enabled_sync hsound hsize htrace hd hne
      (hcompletes m d h (hcalls.launchedByAll hnccl hgroup hd)))
  have hcompressing : m.compressing = [] := hsound.compressing_eq_nil hplain
  have htaken : ∀ d ≤ cfg.root, (m.pipeline d).taken = [] := by
    intro d hd
    have hnoCalls := hcalls.taken d
    rw [hgroup d hd, hpipeline d hd] at hnoCalls
    rw [List.eq_nil_iff_forall_not_mem]
    intro t ht
    have hcalled : t.called = false := by
      cases hcalled : t.called with
      | false => rfl
      | true =>
          have hmem := hnoCalls.symm.subset (List.mem_filter.mpr ⟨ht, hcalled⟩)
          cases hmem
    exact hnone (hsound.enabled_finish hsize htrace hd ht hcalled
      (by rw [hcompressing]; exact List.not_mem_nil))
  unfold Through at hleft
  push Not at hleft
  obtain ⟨k, d, hd, hne⟩ := hleft
  have hwaiting : (m.view cfg k).Waiting cfg.root := by
    refine ⟨fun d hd => position_queued (htaken d hd) k, fun i hi signal => ?_,
      fun i hi signal => ?_⟩
    · unfold view
      dsimp only
      rw [hsignalling i hi, htoRoot .basic i hi, htoRoot .nccl i hi]
      rfl
    · unfold view
      dsimp only
      rw [hbasic i hi, hnccl i hi]
      split <;> rfl
  have hlevel : (m.view cfg k).Level cfg.root k := by
    intro d hd
    have hfilter (d : ℕ) : begunCount (m.view cfg k).log d k = begunCount m.log d k :=
      List.count_filter (decide_eq_true rfl)
    rw [hfilter, hfilter]
    exact hlevel k d hd
  obtain ⟨d', hd', op, htakes⟩ := (hkeys k).exists_takes hwaiting hlevel ⟨d, hd, hne⟩
  exact hnone (hsound.enabled_getTask (hkeys k) hsize htrace hbytes hcredit hd' (htaken d' hd')
    htakes)

end Enabled

end Machine

end DeepInc.Worker
