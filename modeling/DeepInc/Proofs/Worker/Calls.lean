/-
What the NCCL loops of a machine have with them.

A task that was taken for a NCCL call is in the group its loop is at, or in a group that waits to
be synchronised, and nowhere else.  A device that has made a call whose group has not ended is
told of the end in time: the signal is on its way, or the root is at the group itself.  And a
device makes the calls the root has made, each when the signal for it comes: the calls it has made
and the signals for calls on their way to it are as many as the calls of the root.

The last of these is why the devices do not wait for each other without end.  A collective ends
when all devices have called it, so a device that synchronises its groups may have to wait for
others to make their calls.  When no signal is on its way and no group is open, though, all
devices have launched the same number of calls, and then nobody has to wait.

The three facts are one invariant, `Calls`, because they are kept by the same case distinction
over the steps.  A step of a machine concerns the NCCL loops in few ways: a loop takes a task
(`LoopTook`), a call is synchronised, a group ends, or a signal of the root is obeyed.  Each has
a lemma, and every other step leaves all of it as it was.
-/
import DeepInc.Proofs.Worker.Machine

namespace DeepInc.Worker

open Transition Outcome

/-- The stage of a task is a NCCL call. -/
def Task.called (t : Task) : Bool :=
  decide (t.queueList.head? = some .reduce ∨ t.queueList.head? = some .broadcast)

namespace Machine

variable {cfg : Config} {m m' : Machine} {d : ℕ}

/-- After these signals a group is at a call and has not ended. -/
def GroupOpen (group : List Task) (msgs : List CommMsg) : Prop :=
  match msgs.getLast? with
  | none => group ≠ []
  | some msg => msg.signal ≠ .doGroup

theorem groupOpen_append (group : List Task) (msgs : List CommMsg) (msg : CommMsg) :
    GroupOpen group (msgs ++ [msg]) ↔ msg.signal ≠ .doGroup := by
  unfold GroupOpen
  rw [List.getLast?_append]
  rfl

/-- What a signal does to the group was to be expected. -/
theorem GroupOpen.cons {group group' : List Task} {msg : CommMsg} {msgs : List CommMsg}
    (h : GroupOpen group' msgs) (hend : msg.signal = .doGroup → group' = []) :
    GroupOpen group (msg :: msgs) := by
  unfold GroupOpen at h ⊢
  rw [List.getLast?_cons]
  cases hlast : msgs.getLast? with
  | none =>
      rw [hlast] at h
      exact fun hgroup => h (hend hgroup)
  | some last =>
      rw [hlast] at h
      exact h

/-- How many calls a device has made, with those of the group it is at. -/
def made (m : Machine) (d : ℕ) : ℕ := m.launched d + (m.group d).length

/-- How many signals of these tell a device to make a call. -/
def callsIn (msgs : List CommMsg) : ℕ := msgs.countP fun msg => (stageOfCall msg.signal).isSome

theorem callsIn_append (msgs msgs' : List CommMsg) :
    callsIn (msgs ++ msgs') = callsIn msgs + callsIn msgs' := List.countP_append

/-- What the NCCL loops have, and what they are told. -/
structure Calls (cfg : Config) (m : Machine) : Prop where
  taken : ∀ d, (m.group d ++ (m.ncclPipeline d).flatten).Perm
    ((m.pipeline d).taken.filter Task.called)
  opened : ∀ d < cfg.root, GroupOpen (m.group d) (m.inFlight .nccl cfg.root d) →
    m.group cfg.root ≠ []
  told : ∀ d < cfg.root, m.made d + callsIn (m.inFlight .nccl cfg.root d) = m.made cfg.root

/-! ### Calls that are made

A call is made when its task joins the group of its device, launched when the group is put on
the pipeline, and over when it was synchronised.  `made` counts all three, so that it changes
with the first only.
-/

theorem called_eq {t : Task} {op : QueueType} (h : t.queueList.head? = some op) :
    t.called = decide (op = .reduce ∨ op = .broadcast) := by
  unfold Task.called
  rw [h]
  simp

/-- Only the end of a NCCL call counts as one. -/
theorem synced_of_log {e : Event} (hlog : m'.log = e :: m.log) (d : ℕ) :
    m'.synced d = m.synced d + if e.isSync d = true then 1 else 0 := by
  unfold synced
  rw [hlog, List.countP_cons]

theorem synced_finished {op : QueueType} {t : Task}
    (hlog : m'.log = .finished d op t.key :: m.log) (hhead : t.queueList.head? = some op) (i : ℕ) :
    m'.synced i = m.synced i + if i = d ∧ t.called = true then 1 else 0 := by
  have hiff : Event.isSync i (.finished d op t.key) = true ↔ i = d ∧ t.called = true := by
    unfold Event.isSync
    rw [called_eq hhead, decide_eq_true_iff, decide_eq_true_iff, eq_comm]
  rw [synced_of_log hlog, if_congr hiff rfl rfl]

/-- The calls of a device are the same, as long as its loops have the same and hand none back. -/
theorem made_congr (hsynced : m'.synced d = m.synced d) (hgroup : m'.group d = m.group d)
    (hnccl : m'.ncclPipeline d = m.ncclPipeline d) : m'.made d = m.made d := by
  unfold made launched
  rw [hsynced, hgroup, hnccl]

/-- A task that is added to a group makes one more. -/
theorem made_of_group {t : Task} (hsynced : ∀ i, m'.synced i = m.synced i)
    (hgroup : m'.group = Function.update m.group d (m.group d ++ [t]))
    (hnccl : m'.ncclPipeline = m.ncclPipeline) (i : ℕ) :
    m'.made i = m.made i + if i = d then 1 else 0 := by
  unfold made launched
  rw [hsynced, hgroup, hnccl]
  by_cases hi : i = d
  · subst hi
    rw [if_pos rfl, Function.update_self, List.length_append, List.length_singleton]
    omega
  · rw [if_neg hi, Function.update_of_ne hi]
    rfl

/-- A group that ends has its calls launched. -/
theorem made_enqueueGroup (m : Machine) (d i : ℕ) : (m.enqueueGroup d).made i = m.made i := by
  unfold made launched enqueueGroup
  dsimp only
  by_cases hi : i = d
  · subst hi
    rw [Function.update_self, Function.update_self, List.flatten_append, List.flatten_singleton,
      List.length_append, List.length_nil]
    show m.synced i + _ + 0 = _
    omega
  · rw [Function.update_of_ne hi, Function.update_of_ne hi]
    rfl

/-! ### A task is taken

All loops take a task in the same way and differ in what they do with it.  `LoopBody` is the
second part, and says whether the task joins the group and what the other devices are told.
-/

/-- What a loop does with a task it has taken, to the last signal. -/
structure LoopBody (cfg : Config) (d : ℕ) (op : QueueType) (t : Task) (m m' : Machine) : Prop where
  pipeline : m'.pipeline = m.pipeline
  ncclPipeline : m'.ncclPipeline = m.ncclPipeline
  signalling : m'.signalling = m.signalling
  log : m'.log = m.log
  compressing : m'.compressing = if op = .compress then t :: m.compressing else m.compressing
  group : m'.group = if t.called then Function.update m.group d (m.group d ++ [t]) else m.group
  inFlight : t.called = false ∧ m'.inFlight = m.inFlight ∨
    d = cfg.root ∧ ∃ signal comm, (comm = .nccl → (stageOfCall signal).isSome = true) ∧
      (comm = .nccl ↔ t.called = true) ∧
      m'.inFlight = (m.broadcastSignal cfg comm ⟨cfg.root, signal, t.key⟩).inFlight

namespace LoopBody

variable {op : QueueType} {t : Task}

theorem nothing (hop : op ≠ .compress) (hcalled : t.called = false) (m : Machine) :
    LoopBody cfg d op t m m where
  pipeline := rfl
  ncclPipeline := rfl
  signalling := rfl
  log := rfl
  compressing := (if_neg hop).symm
  group := by rw [hcalled]; rfl
  inFlight := .inl ⟨hcalled, rfl⟩

theorem compress (hcalled : t.called = false) (m : Machine) :
    LoopBody cfg d .compress t m { m with compressing := t :: m.compressing } where
  pipeline := rfl
  ncclPipeline := rfl
  signalling := rfl
  log := rfl
  compressing := (if_pos rfl).symm
  group := by rw [hcalled]; rfl
  inFlight := .inl ⟨hcalled, rfl⟩

theorem rootNccl (hd : d = cfg.root) (hop : op ≠ .compress) (hcalled : t.called = true)
    {signal : CommSignal} (hsignal : (stageOfCall signal).isSome = true) (m : Machine) :
    LoopBody cfg d op t m
      ((m.addToGroup d t).broadcastSignal cfg .nccl ⟨d, signal, t.key⟩) where
  pipeline := rfl
  ncclPipeline := rfl
  signalling := rfl
  log := rfl
  compressing := (if_neg hop).symm
  group := by rw [hcalled]; rfl
  inFlight := .inr ⟨hd, signal, .nccl, fun _ => hsignal, ⟨fun _ => hcalled, fun _ => rfl⟩, by rw [hd]; rfl⟩

theorem rootCopy (hd : d = cfg.root) (hcalled : t.called = false) (m : Machine) :
    LoopBody cfg d .copyH2D t m (m.broadcastSignal cfg .basic ⟨d, .doCopyH2D, t.key⟩) where
  pipeline := rfl
  ncclPipeline := rfl
  signalling := rfl
  log := rfl
  compressing := rfl
  group := by rw [hcalled]; rfl
  inFlight := .inr ⟨hd, .doCopyH2D, .basic, nofun,
    ⟨nofun, fun h => by rw [hcalled] at h; cases h⟩, by rw [hd]⟩

end LoopBody

/-- A loop has taken a task and done something with it. -/
structure LoopTook (cfg : Config) (m : Machine) (d : ℕ) (op : QueueType) (t : Task)
    (s : Pipeline) (m' : Machine) : Prop where
  step : ∃ ready now, (m.pipeline d).step (cfg.setup d) (.getTask op ready now) = .ok s
  taken : s.taken = t :: (m.pipeline d).taken
  moved : ∃ u R, u.queueList = t.queueList ∧ (m.pipeline d).places.Perm ((.queue op, u) :: R) ∧
    s.places.Perm ((.taken, t) :: R)
  completing : s.completing = (m.pipeline d).completing
  head : t.queueList.head? = some op
  body : LoopBody cfg d op t ((m.setPipeline d s).record (.got d op t.key)) m'

theorem takeTask_cases (h : m.Sound cfg) {op : QueueType} {ready : ℕ → Bool} {now : ℤ}
    {body : Machine → Task → Machine}
    (hbody : ∀ m t, t.queueList.head? = some op → LoopBody cfg d op t m (body m t))
    (hs : takeTask cfg m d ready now op body = .ok m') :
    m' = m ∨ ∃ t s, LoopTook cfg m d op t s m' := by
  unfold takeTask at hs
  dsimp only at hs
  split at hs
  · exact .inl (Except.ok.inj hs).symm
  · rename_i t' q rt hget
    obtain ⟨s, htake, hs⟩ := bind_eq_ok hs
    obtain ⟨t, rfl, hperm, -, -, -⟩ := ScheduledQueue.getTask_spec hget
    have hin : t ∈ ((m.pipeline d).queues op).sq := hperm.mem_iff.mpr List.mem_cons_self
    have hrun : (m.pipeline d).step (cfg.setup d) (.getTask op ready now) = .ok s := by
      change runGetTask (cfg.setup d) (m.pipeline d) op ready now = .ok s
      unfold runGetTask
      rw [hget]
      exact htake
    obtain ⟨tables, htables⟩ := setTable_eq (cfg.setup d) (m.pipeline d) op rt
    rw [htables] at htake
    have hhead : t.queueList.head? = some op := h.head_of_queue hin
    obtain ⟨R, hbefore, hafter⟩ := places_take hperm htake
    have hcompleting : s.completing = (m.pipeline d).completing := by
      obtain ⟨p, -, rfl⟩ := take_cases htake
      rfl
    refine .inr ⟨{ t with readyEvent := none }, s, ⟨ready, now, hrun⟩,
      (h.taken hperm htake).taken, ⟨t, R, rfl, hbefore, hafter⟩, hcompleting, hhead, ?_⟩
    rw [← Except.ok.inj hs]
    exact hbody _ _ hhead

/-- A loop finds nothing, or takes a task. -/
theorem runLoopOnce_cases (hsize : 2 ≤ cfg.localSize) (h : m.Sound cfg) {op : QueueType}
    {ready : ℕ → Bool} {now : ℤ} (hs : runLoopOnce cfg m d ready now op = .ok m') :
    m' = m ∨ ∃ t s, LoopTook cfg m d op t s m' := by
  have hlt : 1 < cfg.localSize := by omega
  have hcalled {t : Task} {op : QueueType} (hhead : t.queueList.head? = some op) {b : Bool}
      (hop : decide (op = .reduce ∨ op = .broadcast) = b) : t.called = b :=
    (called_eq hhead).trans hop
  unfold runLoopOnce at hs
  by_cases hroot : d = cfg.root
  · rw [if_pos hroot] at hs
    cases op with
    | reduce =>
        refine takeTask_cases h (fun m t hhead => ?_) hs
        dsimp only
        rw [if_pos hlt]
        exact .rootNccl hroot (by decide) (hcalled hhead rfl) rfl m
    | broadcast =>
        refine takeTask_cases h (fun m t hhead => ?_) hs
        dsimp only
        rw [if_pos hlt]
        exact .rootNccl hroot (by decide) (hcalled hhead rfl) rfl m
    | compress =>
        exact takeTask_cases h (fun m t hhead => .compress (hcalled hhead rfl) m) hs
    | copyH2D =>
        refine takeTask_cases h (fun m t hhead => ?_) hs
        rw [if_pos hlt]
        exact .rootCopy hroot (hcalled hhead rfl) m
    | copyD2H | push | pull | decompress =>
        exact takeTask_cases h (fun m t hhead => .nothing (by decide) (hcalled hhead rfl) m) hs
    | coordinateReduce | pcieReduce | coordinatePush | coordinateBroadcast => cases hs
  · rw [if_neg hroot] at hs
    cases op with
    | coordinateReduce | coordinatePush | coordinateBroadcast | copyD2H | copyH2D =>
        exact takeTask_cases h (fun m t hhead => .nothing (by decide) (hcalled hhead rfl) m) hs
    | reduce | pcieReduce | compress | push | pull | decompress | broadcast => cases hs

/-- A task that is taken for a call makes one more. -/
theorem LoopTook.made {op : QueueType} {t : Task} {s : Pipeline}
    (h : LoopTook cfg m d op t s m') (i : ℕ) :
    m'.made i = m.made i + if i = d ∧ t.called = true then 1 else 0 := by
  have hbody := h.body
  have hsynced (i : ℕ) : m'.synced i = m.synced i := by
    rw [synced_of_log hbody.log]
    rfl
  by_cases hcalled : t.called = true
  · rw [made_of_group hsynced (hbody.group.trans (if_pos hcalled)) hbody.ncclPipeline]
    simp only [hcalled, and_true]
  · rw [if_neg fun hboth => hcalled hboth.2]
    exact made_congr (hsynced i) (congrFun (hbody.group.trans (if_neg hcalled)) i)
      (congrFun hbody.ncclPipeline i)

namespace Calls

variable {op : QueueType} {t : Task} {s : Pipeline}

/-- A loop has taken a task. -/
theorem took (hsize : 2 ≤ cfg.localSize) (h : m.Calls cfg) (htook : LoopTook cfg m d op t s m')
    (hpeer : d ≠ cfg.root → t.called = false) : m'.Calls cfg := by
  have hbody := htook.body
  have hpipeline : m'.pipeline = Function.update m.pipeline d s := hbody.pipeline
  constructor
  · intro d'
    rw [hbody.group, hbody.ncclPipeline, hpipeline]
    show (List.append ((if t.called then Function.update m.group d (m.group d ++ [t]) else m.group) d')
      (m.ncclPipeline d').flatten).Perm _
    by_cases hd : d' = d
    · subst hd
      rw [Function.update_self, htook.taken, List.filter_cons]
      split
      · rename_i hcalled
        rw [Function.update_self]
        show ((m.group d' ++ [t]) ++ _).Perm _
        rw [List.append_assoc]
        exact List.perm_middle.trans ((h.taken d').cons t)
      · exact h.taken d'
    · rw [Function.update_of_ne hd]
      split
      · rw [Function.update_of_ne hd]
        exact h.taken d'
      · exact h.taken d'
  · intro i hi hopen
    have hgroupOf (i : ℕ) : m'.group i ≠ [] ∨ m'.group i = m.group i := by
      rw [hbody.group]
      split
      · show Function.update m.group d (m.group d ++ [t]) i ≠ [] ∨ _
        by_cases hid : i = d
        · subst hid
          rw [Function.update_self]
          exact .inl (by simp)
        · exact .inr (Function.update_of_ne hid _ _)
      · exact .inr rfl
    have hroot : m.group cfg.root ≠ [] → m'.group cfg.root ≠ [] := by
      intro hne
      rcases hgroupOf cfg.root with hne' | hsame
      · exact hne'
      · rwa [hsame]
    by_cases hcalled : t.called = true
    · -- the root has just taken the task, and its group is at the call
      have hd : d = cfg.root := by
        by_contra hd
        rw [hpeer hd] at hcalled
        cases hcalled
      rw [hbody.group, if_pos hcalled]
      show Function.update m.group d (m.group d ++ [t]) cfg.root ≠ []
      rw [hd, Function.update_self]
      simp
    · have hgroup : m'.group = m.group := by rw [hbody.group, if_neg hcalled]; rfl
      refine hroot (h.opened i hi ?_)
      rw [hgroup] at hopen
      rcases hbody.inFlight with ⟨-, hsame⟩ | ⟨-, signal, comm, -, hcomm, hsame⟩
      · rwa [hsame] at hopen
      · rw [hsame, inFlight_broadcast hsize _ rfl,
          if_neg fun hboth => hcalled (hcomm.mp hboth.1.symm), List.append_nil] at hopen
        exact hopen
  · intro i hi
    have hne : i ≠ cfg.root := Nat.ne_of_lt hi
    have htold := h.told i hi
    rw [htook.made, htook.made]
    rcases hbody.inFlight with ⟨hcalled, hsame⟩ | ⟨rfl, signal, comm, hcall, hcomm, hsame⟩
    · rw [hsame, hcalled, if_neg (by simp), if_neg (by simp)]
      exact htold
    · -- the signal for the call goes out with it
      rw [hsame, inFlight_broadcast hsize _ rfl, callsIn_append, if_neg fun hboth => hne hboth.1]
      show m.made i + 0 + (callsIn (m.inFlight .nccl cfg.root i) + _) = _
      by_cases hcalled : t.called = true
      · have hsignal := hcall (hcomm.mpr hcalled)
        rw [if_pos ⟨(hcomm.mpr hcalled).symm, hi⟩, if_pos ⟨rfl, hcalled⟩]
        have hone : callsIn [⟨cfg.root, signal, t.key⟩] = 1 := by simp [callsIn, hsignal]
        omega
      · rw [if_neg fun hboth => hcalled (hcomm.mp hboth.1.symm), if_neg fun hboth => hcalled hboth.2]
        exact htold

/-- A step that the NCCL loops do not see. -/
theorem same (h : m.Calls cfg) (hgroup : m'.group = m.group)
    (hnccl : m'.ncclPipeline = m.ncclPipeline) (hsynced : ∀ d, m'.synced d = m.synced d)
    (htaken : ∀ d, ((m'.pipeline d).taken.filter Task.called).Perm
      ((m.pipeline d).taken.filter Task.called))
    (hinFlight : ∀ i < cfg.root, m'.inFlight .nccl cfg.root i = m.inFlight .nccl cfg.root i) :
    m'.Calls cfg where
  taken d' := by
    rw [hgroup, hnccl]
    exact (h.taken d').trans (htaken d').symm
  opened i hi hopen := by
    rw [hgroup, hinFlight i hi] at hopen
    rw [hgroup]
    exact h.opened i hi hopen
  told i hi := by
    have hmade (d : ℕ) : m'.made d = m.made d :=
      made_congr (hsynced d) (by rw [hgroup]) (by rw [hnccl])
    rw [hmade, hmade, hinFlight i hi]
    exact h.told i hi

/-- One device goes on, and its loops keep what they have. -/
theorem device (h : m.Calls cfg) {d : ℕ} {s : Pipeline}
    (hpipeline : m'.pipeline = Function.update m.pipeline d s)
    (htaken : s.taken = (m.pipeline d).taken) (hgroup : m'.group = m.group)
    (hnccl : m'.ncclPipeline = m.ncclPipeline) (hsynced : ∀ d, m'.synced d = m.synced d)
    (hinFlight : ∀ i < cfg.root, m'.inFlight .nccl cfg.root i = m.inFlight .nccl cfg.root i) :
    m'.Calls cfg := by
  refine h.same hgroup hnccl hsynced (fun d' => ?_) hinFlight
  rw [hpipeline]
  by_cases hd : d' = d
  · rw [hd, Function.update_self, htaken]
  · rw [Function.update_of_ne hd]

/-- What is left of what a loop has, when it hands a task back. -/
theorem filter_erase {ts : List Task} (ht : t ∈ ts) :
    (ts.filter Task.called).Perm
      (if t.called then t :: (ts.erase t).filter Task.called
        else (ts.erase t).filter Task.called) := by
  have hperm := (List.perm_cons_erase ht).filter Task.called
  rwa [List.filter_cons] at hperm

/-- A loop that makes no calls hands a task back. -/
theorem finish (h : m.Calls cfg) (ht : t ∈ (m.pipeline d).taken) (hcalled : t.called = false)
    (htaken : s.taken = (m.pipeline d).taken.erase t)
    (hpipeline : m'.pipeline = Function.update m.pipeline d s) (hgroup : m'.group = m.group)
    (hnccl : m'.ncclPipeline = m.ncclPipeline) (hsynced : ∀ d, m'.synced d = m.synced d)
    (hinFlight : m'.inFlight = m.inFlight) : m'.Calls cfg := by
  refine h.same hgroup hnccl hsynced (fun d' => ?_) fun i _ => by rw [hinFlight]
  rw [hpipeline]
  by_cases hd : d' = d
  · rw [hd, Function.update_self, htaken]
    have hperm := filter_erase ht
    rw [hcalled] at hperm
    exact hperm.symm
  · rw [Function.update_of_ne hd]

/-- A call is synchronised, and its task handed back. -/
theorem sync (h : m.Calls cfg) {ts : List Task} {groups : List (List Task)}
    (hgroups : m.ncclPipeline d = (t :: ts) :: groups) (ht : t ∈ (m.pipeline d).taken)
    (htaken : s.taken = (m.pipeline d).taken.erase t)
    (hpipeline : m'.pipeline = Function.update m.pipeline d s) (hgroup : m'.group = m.group)
    (hnccl : m'.ncclPipeline = Function.update m.ncclPipeline d (ts :: groups))
    (hsynced : ∀ i, m'.synced i = m.synced i + if i = d ∧ t.called = true then 1 else 0)
    (hinFlight : m'.inFlight = m.inFlight) : m'.Calls cfg where
  taken d' := by
    rw [hgroup, hnccl, hpipeline]
    by_cases hd : d' = d
    · subst hd
      rw [Function.update_self, Function.update_self, htaken]
      have hbefore := h.taken d'
      rw [hgroups] at hbefore
      have hmem : t ∈ (m.pipeline d').taken.filter Task.called := hbefore.subset (by simp)
      have hperm := filter_erase ht
      rw [(List.mem_filter.mp hmem).2, if_pos rfl] at hperm
      refine List.Perm.cons_inv (a := t) (.trans ?_ (hbefore.trans hperm))
      exact List.perm_middle.symm
    · rw [Function.update_of_ne hd, Function.update_of_ne hd]
      exact h.taken d'
  opened i hi hopen := by
    rw [hgroup, hinFlight] at hopen
    rw [hgroup]
    exact h.opened i hi hopen
  told i hi := by
    have hcalled : t.called = true :=
      (List.mem_filter.mp ((h.taken d).subset (show t ∈ _ by rw [hgroups]; simp))).2
    have hmade (i : ℕ) : m'.made i = m.made i := by
      unfold made launched
      rw [hsynced, hgroup, hnccl]
      by_cases hid : i = d
      · subst hid
        rw [if_pos ⟨rfl, hcalled⟩, Function.update_self, hgroups, List.flatten_cons,
          List.flatten_cons, List.cons_append, List.length_cons]
        omega
      · rw [if_neg fun hboth => hid hboth.1, Function.update_of_ne hid]
        rfl
    rw [hmade, hmade, hinFlight]
    exact h.told i hi

/-- A group that has been synchronised is dropped. -/
theorem drop (h : m.Calls cfg) {groups : List (List Task)}
    (hgroups : m.ncclPipeline d = [] :: groups) :
    Calls cfg { m with ncclPipeline := Function.update m.ncclPipeline d groups } where
  taken d' := by
    by_cases hd : d' = d
    · subst hd
      have hbefore := h.taken d'
      rw [hgroups] at hbefore
      show (m.group d' ++ (Function.update m.ncclPipeline d' groups d').flatten).Perm _
      rw [Function.update_self]
      exact hbefore
    · show (m.group d' ++ (Function.update m.ncclPipeline d groups d').flatten).Perm _
      rw [Function.update_of_ne hd]
      exact h.taken d'
  opened := h.opened
  told i hi := by
    have hmade (i : ℕ) : made { m with
        ncclPipeline := Function.update m.ncclPipeline d groups } i = m.made i := by
      unfold made launched
      dsimp only
      by_cases hid : i = d
      · subst hid
        rw [Function.update_self, hgroups]
        rfl
      · rw [Function.update_of_ne hid]
        rfl
    rw [hmade, hmade]
    exact h.told i hi

/-- The tasks of a group are the same when it has ended. -/
theorem perm_enqueueGroup (h : m.Calls cfg) (d d' : ℕ) :
    ((m.enqueueGroup d).group d' ++ ((m.enqueueGroup d).ncclPipeline d').flatten).Perm
      ((m.pipeline d').taken.filter Task.called) := by
  refine .trans ?_ (h.taken d')
  unfold enqueueGroup
  dsimp only
  by_cases hd : d' = d
  · subst hd
    rw [Function.update_self, Function.update_self, List.nil_append, List.flatten_append,
      List.flatten_singleton]
    exact List.perm_append_comm
  · rw [Function.update_of_ne hd, Function.update_of_ne hd]

/-- The root ends its group, and tells the others. -/
theorem endGroup (hsize : 2 ≤ cfg.localSize) (h : m.Calls cfg) :
    (endGroup cfg m).Calls cfg := by
  unfold Machine.endGroup
  split
  · exact h
  · constructor
    · exact fun d' => h.perm_enqueueGroup cfg.root d'
    · intro i hi hopen
      have hend : ((m.broadcastSignal cfg .nccl ⟨cfg.root, .doGroup, 0⟩).enqueueGroup
          cfg.root).inFlight .nccl cfg.root i =
          m.inFlight .nccl cfg.root i ++ [⟨cfg.root, .doGroup, 0⟩] := by
        show (m.broadcastSignal cfg .nccl ⟨cfg.root, .doGroup, 0⟩).inFlight .nccl cfg.root i = _
        rw [inFlight_broadcast hsize _ rfl, if_pos ⟨rfl, hi⟩]
      rw [hend, groupOpen_append] at hopen
      exact absurd rfl hopen
    · intro i hi
      have hmade (i : ℕ) : ((m.broadcastSignal cfg .nccl ⟨cfg.root, .doGroup, 0⟩).enqueueGroup
          cfg.root).made i = m.made i := made_enqueueGroup _ _ _
      rw [hmade, hmade]
      show m.made i + callsIn ((m.broadcastSignal cfg .nccl ⟨cfg.root, .doGroup, 0⟩).inFlight
        .nccl cfg.root i) = _
      rw [inFlight_broadcast hsize _ rfl, if_pos ⟨rfl, hi⟩, callsIn_append]
      exact h.told i hi

/-- The signals of the root on the NCCL socket, when one device has heard one. -/
theorem inFlight_nccl {msgs : List CommMsg}
    (h : m'.inFlight = (m.setInFlight .nccl cfg.root d msgs).inFlight) (i : ℕ) :
    m'.inFlight .nccl cfg.root i = if i = d then msgs else m.inFlight .nccl cfg.root i := by
  rw [h]
  unfold setInFlight
  simp

/-- A device takes the next signal of the root, and its group is as the signal says. -/
theorem heard (h : m.Calls cfg) (hd : d < cfg.root) {msg : CommMsg} {msgs : List CommMsg}
    (hmsgs : m.inFlight .nccl cfg.root d = msg :: msgs)
    (htaken : ∀ d, (m'.group d ++ (m'.ncclPipeline d).flatten).Perm
      ((m'.pipeline d).taken.filter Task.called))
    (hother : ∀ i, i ≠ d → m'.group i = m.group i)
    (hend : msg.signal = .doGroup → m'.group d = [])
    (hmade : ∀ i, m'.made i =
      m.made i + if i = d ∧ (stageOfCall msg.signal).isSome = true then 1 else 0)
    (hinFlight : m'.inFlight = (m.setInFlight .nccl cfg.root d msgs).inFlight) : m'.Calls cfg where
  taken := htaken
  opened i hi hopen := by
    rw [hother cfg.root (Nat.ne_of_gt hd)]
    rw [inFlight_nccl hinFlight] at hopen
    by_cases hid : i = d
    · subst hid
      rw [if_pos rfl] at hopen
      refine h.opened i hi ?_
      rw [hmsgs]
      exact hopen.cons hend
    · rw [if_neg hid, hother i hid] at hopen
      exact h.opened i hi hopen
  told i hi := by
    have htold := h.told i hi
    have hroot : m'.made cfg.root = m.made cfg.root := by
      rw [hmade, if_neg fun hboth => Nat.ne_of_gt hd hboth.1]
      rfl
    rw [hroot, hmade, inFlight_nccl hinFlight]
    by_cases hid : i = d
    · subst hid
      rw [hmsgs] at htold
      unfold callsIn at htold ⊢
      rw [List.countP_cons] at htold
      rw [if_pos rfl]
      by_cases hcall : (stageOfCall msg.signal).isSome = true
      · rw [if_pos hcall] at htold
        rw [if_pos ⟨rfl, hcall⟩]
        omega
      · rw [if_neg hcall] at htold
        rw [if_neg fun hboth => hcall hboth.2]
        exact htold
    · rw [if_neg hid, if_neg fun hboth => hid hboth.1]
      exact htold

end Calls

/-! ### Every step -/

section Step

variable {now : ℤ}

theorem runFinish_calls (h : m.Sound cfg) (hcalls : m.Calls cfg) {t : Task}
    (hs : runFinish cfg m d now t = .ok m') : m'.Calls cfg := by
  unfold runFinish at hs
  cases hlist : t.queueList with
  | nil =>
      rw [hlist] at hs
      cases hs
  | cons op rest =>
      rw [hlist] at hs
      dsimp only at hs
      split at hs
      · cases hs
      · rename_i hnone
        obtain ⟨m₁, hm₁, hs⟩ := bind_eq_ok hs
        obtain ⟨s, hs₁, hm₁⟩ := bind_eq_ok hm₁
        obtain rfl := Except.ok.inj hm₁
        obtain ⟨ht, hfinished⟩ := h.finished hs₁ hlist
        have hcalled : t.called = false := by
          rw [called_eq (show t.queueList.head? = some op by rw [hlist]; rfl)]
          exact decide_eq_false fun hop => hnone (hop.imp_right .inl)
        obtain rfl := Except.ok.inj hs
        have hrest : ∀ m : Machine, (coordinate m d op t).pipeline = m.pipeline ∧
            (coordinate m d op t).group = m.group ∧
            (coordinate m d op t).ncclPipeline = m.ncclPipeline ∧
            (coordinate m d op t).log = m.log ∧
            (coordinate m d op t).inFlight = m.inFlight := by
          intro m
          unfold coordinate
          split
          · exact ⟨rfl, rfl, rfl, rfl, rfl⟩
          · exact ⟨rfl, rfl, rfl, rfl, rfl⟩
        obtain ⟨hpipeline, hgroup, hnccl, hlog, hinFlight⟩ :=
          hrest ((m.setPipeline d s).record (.finished d op t.key))
        refine hcalls.finish ht hcalled hfinished.taken hpipeline hgroup hnccl (fun i => ?_) hinFlight
        rw [synced_finished (m := m) (t := t) (hlog.trans rfl) (by rw [hlist]; rfl), hcalled,
          if_neg fun hboth => Bool.false_ne_true hboth.2]
        rfl

theorem runSyncNcclOnce_calls (h : m.Sound cfg) (hcalls : m.Calls cfg)
    (hs : runSyncNcclOnce cfg m d now = .ok m') : m'.Calls cfg := by
  unfold runSyncNcclOnce at hs
  split at hs
  · obtain rfl := Except.ok.inj hs
    exact hcalls
  · rename_i groups hgroups
    obtain rfl := Except.ok.inj hs
    exact hcalls.drop hgroups
  · rename_i t ts groups hgroups
    cases hlist : t.queueList with
    | nil =>
        rw [hlist] at hs
        cases hs
    | cons op rest =>
        rw [hlist] at hs
        obtain ⟨m₁, hm₁, hs⟩ := bind_eq_ok hs
        obtain ⟨s, hs₁, hm₁⟩ := bind_eq_ok hm₁
        obtain rfl := Except.ok.inj hm₁
        obtain rfl := Except.ok.inj hs
        obtain ⟨ht, hfinished⟩ := h.finished hs₁ hlist
        exact hcalls.sync hgroups ht hfinished.taken rfl rfl rfl
          (synced_finished rfl (by rw [hlist]; rfl)) rfl

theorem runNonRootNcclLoopOnce_calls (h : m.Sound cfg) (hcalls : m.Calls cfg) (hd : d < cfg.root)
    {ready : ℕ → Bool} (hs : runNonRootNcclLoopOnce cfg m d ready now = .ok m') :
    m'.Calls cfg := by
  unfold runNonRootNcclLoopOnce at hs
  split at hs
  · cases hs
  · rename_i msg msgs hmsgs
    obtain ⟨_, _, hs⟩ := bind_eq_ok hs
    dsimp only at hs
    by_cases hgroup : msg.signal = .doGroup
    · rw [if_pos hgroup] at hs
      obtain rfl := Except.ok.inj hs
      refine hcalls.heard hd hmsgs (fun d' => ?_) (fun i hi => ?_) (fun _ => ?_) (fun i => ?_) rfl
      · exact hcalls.perm_enqueueGroup d d'
      · exact Function.update_of_ne hi _ _
      · exact Function.update_self ..
      · rw [made_enqueueGroup, hgroup, if_neg fun hboth => Bool.false_ne_true hboth.2]
        rfl
    · rw [if_neg hgroup] at hs
      split at hs
      · cases hs
      · rename_i op hop
        obtain ⟨found, hfound, hs⟩ := bind_eq_ok hs
        cases found with
        | none => cases hs
        | some found =>
            obtain ⟨s, htake, hs⟩ := bind_eq_ok hs
            obtain ⟨t, ht', hperm, -, -⟩ := ScheduledQueue.getTaskOf_spec (orStop_eq_ok hfound)
            have htake : take { m.pipeline d with tables := (m.pipeline d).tables } op found.2
                found.1 now = .ok s := htake
            rw [ht'] at htake
            have hin : t ∈ ((m.pipeline d).queues op).sq := hperm.mem_iff.mpr List.mem_cons_self
            have htaken := (h.taken hperm htake).taken
            have hhead : found.1.queueList.head? = some op := by
              have hhead : t.queueList.head? = some op := h.head_of_queue hin
              rw [ht']
              exact hhead
            have hcalled : found.1.called = true := by
              rw [called_eq hhead]
              exact decide_eq_true (KeyState.Inv.stageOfCall_eq hop)
            rw [← ht'] at htaken
            obtain rfl := Except.ok.inj hs
            refine hcalls.heard hd hmsgs (fun d' => ?_) (fun i hi => Function.update_of_ne hi _ _)
              (fun hend => absurd hend hgroup) (fun i => ?_) rfl
            · show (Function.update m.group d (m.group d ++ [found.1]) d' ++
                (m.ncclPipeline d').flatten).Perm
                  ((Function.update m.pipeline d s d').taken.filter Task.called)
              by_cases hd' : d' = d
              · subst hd'
                rw [Function.update_self, Function.update_self, htaken, List.filter_cons,
                  if_pos hcalled, List.append_assoc]
                exact List.perm_middle.trans ((hcalls.taken d').cons found.1)
              · rw [Function.update_of_ne hd', Function.update_of_ne hd']
                exact hcalls.taken d'
            · refine Eq.trans (made_of_group (m := m) (d := d) (t := found.1) ?_ ?_ ?_ i) ?_
              · exact fun _ => rfl
              · rfl
              · rfl
              · simp only [hop, Option.isSome_some, and_true]

theorem addNext_taken {setup : Setup} {s s' : Pipeline} {call : ℕ}
    (h : addNext setup s call = .ok s') : s'.taken = s.taken := by
  obtain ⟨t, rest, op, q, -, -, -, rfl⟩ := addNext_cases h
  rfl

theorem runAddNext_calls (hcalls : m.Calls cfg) {call : ℕ}
    (hs : runAddNext cfg m d call = .ok m') : m'.Calls cfg := by
  unfold runAddNext at hs
  split at hs
  · cases hs
  · obtain ⟨m₁, hm₁, rfl⟩ := map_eq_ok hs
    obtain ⟨s, hrun, rfl⟩ := map_eq_ok hm₁
    exact hcalls.device rfl (addNext_taken hrun) rfl rfl (fun _ => rfl) fun _ _ => rfl

theorem stepDevice_calls (hsize : 2 ≤ cfg.localSize) (h : m.Sound cfg) (hcalls : m.Calls cfg)
    {a : DeviceAct} (hs : stepDevice cfg m d a = .ok m') : m'.Calls cfg := by
  cases a with
  | enqueueTensor args now =>
      obtain ⟨s, hrun, rfl⟩ := map_eq_ok hs
      exact hcalls.device rfl (enqueueTensor_active hrun).2.1 rfl rfl (fun _ => rfl) fun _ _ => rfl
  | addNext call => exact runAddNext_calls hcalls hs
  | getTask op ready now =>
      rcases runLoopOnce_cases hsize h hs with rfl | ⟨t, s, htook⟩
      · exact hcalls
      · refine hcalls.took hsize htook fun hd => ?_
        -- the NCCL loops of the other devices take no task of themselves
        have hs : runLoopOnce cfg m d ready now op = .ok m' := hs
        unfold runLoopOnce at hs
        rw [if_neg hd] at hs
        rw [called_eq htook.head]
        cases op <;> first | rfl | cases hs
  | finish t now => exact runFinish_calls h hcalls hs
  | syncNccl now => exact runSyncNcclOnce_calls h hcalls hs
  | complete i now =>
      obtain ⟨s, hrun, rfl⟩ := map_eq_ok hs
      exact hcalls.device rfl (complete_tables hrun).2.2.1 rfl rfl (fun _ => rfl) fun _ _ => rfl

theorem stepRoot_calls (hsize : 2 ≤ cfg.localSize) (hcalls : m.Calls cfg) {a : RootAct}
    (hs : stepRoot cfg m a = .ok m') : m'.Calls cfg := by
  cases a with
  | compress t =>
      have hs : runCompress cfg m t = .ok m' := hs
      unfold runCompress at hs
      split at hs
      · split at hs
        · rename_i op _ _
          obtain ⟨s, hrun, hs⟩ := bind_eq_ok hs
          obtain rfl := Except.ok.inj hs
          obtain ⟨tables, htables⟩ := setTable_eq (cfg.setup cfg.root) (m.pipeline cfg.root) op
            ((tableOf (cfg.setup cfg.root) (m.pipeline cfg.root) op).map
              (·.setReadyCount t.key (cfg.localSize - 1)))
          have hs' : setTable (cfg.setup cfg.root) (m.pipeline cfg.root) op _ = s :=
            Except.ok.inj hrun
          refine hcalls.device rfl ?_ rfl rfl (fun _ => rfl) fun _ _ => rfl
          rw [← hs', htables]
        · cases hs
      · cases hs
  | endGroup =>
      obtain rfl := Except.ok.inj (show Except.ok (Machine.endGroup cfg m) = .ok m' from hs)
      exact hcalls.endGroup hsize
  | listen comm d =>
      have hs : (if d < cfg.root then startListenThread cfg m d comm else .error .notEnabled) =
          .ok m' := hs
      split at hs
      · rename_i hd
        unfold startListenThread at hs
        split at hs
        · cases hs
        · split at hs
          · cases hs
          · obtain ⟨s, hrun, hs⟩ := bind_eq_ok hs
            obtain rfl := Except.ok.inj hs
            refine hcalls.device rfl (addReadyCount_cases hrun).2.2.1 rfl rfl (fun _ => rfl) fun i _ => ?_
            exact if_neg fun h => Nat.ne_of_gt hd h.2.1
      · cases hs

theorem stepPeer_calls (h : m.Sound cfg) (hcalls : m.Calls cfg) (hd : d < cfg.root)
    {a : PeerAct} (hs : stepPeer cfg m d a = .ok m') : m'.Calls cfg := by
  cases a with
  | sendSignal i =>
      have hs : sendSignalToRoot cfg m d i = .ok m' := hs
      unfold sendSignalToRoot at hs
      split at hs
      · cases hs
      · obtain rfl := Except.ok.inj hs
        refine hcalls.same rfl rfl (fun _ => rfl) (fun _ => .refl _) fun i _ => ?_
        exact if_neg fun h => Nat.ne_of_gt hd h.2.1
  | nonRootNccl ready now => exact runNonRootNcclLoopOnce_calls h hcalls hd hs
  | copyListen =>
      have hs : runNonRootCopyListenLoopOnce cfg m d = .ok m' := hs
      unfold runNonRootCopyListenLoopOnce at hs
      split at hs
      · cases hs
      · obtain ⟨_, _, hs⟩ := bind_eq_ok hs
        obtain ⟨_, _, hs⟩ := bind_eq_ok hs
        obtain ⟨s, hrun, hs⟩ := bind_eq_ok hs
        obtain rfl := Except.ok.inj hs
        refine hcalls.device rfl (addReadyCount_cases hrun).2.2.1 rfl rfl (fun _ => rfl) fun i _ => ?_
        simp [setInFlight, setPipeline, record]

/-- Every step keeps what the NCCL loops have in order. -/
theorem step_calls (hsize : 2 ≤ cfg.localSize) (h : m.Sound cfg) (hcalls : m.Calls cfg) {a : Act}
    (hs : step cfg m a = .ok m') : m'.Calls cfg := by
  cases a with
  | device d a =>
      have hs : (if d < cfg.localSize then stepDevice cfg m d a else .error .notEnabled) =
          .ok m' := hs
      split at hs
      · exact stepDevice_calls hsize h hcalls hs
      · cases hs
  | root a => exact stepRoot_calls hsize hcalls hs
  | peer d a =>
      have hs : (if d < cfg.root then stepPeer cfg m d a else .error .notEnabled) = .ok m' := hs
      split at hs
      · exact stepPeer_calls h hcalls ‹_› hs
      · cases hs

theorem Started.calls (h : Started cfg m) : m.Calls cfg := by
  obtain ⟨p, -, rfl⟩ := h
  exact ⟨fun _ => .refl _, fun i _ hopen => absurd rfl hopen, fun _ _ => rfl⟩

theorem Runs.calls (hsize : 2 ≤ cfg.localSize) (h : Runs cfg m) : m.Calls cfg := by
  refine Reachable.invariant (P := fun m => m.Calls cfg) (fun _ hm => hm.calls)
    (fun m a m' hreach hcalls hs => ?_) h
  exact step_calls hsize (Runs.invariant hsize hreach).1 hcalls hs.2

end Step

end Machine

end DeepInc.Worker
