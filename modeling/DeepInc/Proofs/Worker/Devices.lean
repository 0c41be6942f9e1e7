/-
What a machine has of each of its keys.

A machine is a process for every device, with queues, loops and tables, and two sockets between
them.  All of it is shared by all keys.  `view` keeps of a machine what there is of one key: the
task of the key on every device, the counts of the key, the signals about it that are on their
way, and what has happened to it.

A step of the machine is a step of the key it is about, and leaves the views of all other keys
as they are; so what holds of the rounds of a key holds of every key of a machine.  That is
`Follows`, and the files after this one show it for one kind of step after the other.

It needs some facts about the machine as a whole, which are `Sound`: what was asked for are the
stages of the device, what the thread pool compresses is with a loop, what a group holds is at a
NCCL call, there is at most one task of a key on a device, and each socket carries signals of
its own kinds only.  A step has to keep these as well, so that both are shown together.
-/
import DeepInc.Proofs.Worker.KeyTask

namespace DeepInc.Worker

open Transition Outcome

namespace Machine

/-! ### The view of a key -/

def Event.key : Event → ℕ
  | .begun _ key => key
  | .got _ _ key => key
  | .finished _ _ key => key
  | .heard _ _ key => key

/-- The signals of a kind that are about a key. -/
def signalsOf (k : ℕ) (signal : CommSignal) (msgs : List CommMsg) : ℕ :=
  msgs.countP fun msg => decide (msg.signal = signal ∧ msg.key = k)

/-- What there is of one key.  The signal that ends a group is about none. -/
def view (cfg : Config) (k : ℕ) (m : Machine) : KeyState where
  position d := (m.pipeline d).position k
  sending d signal := signalsOf k signal ((m.signalling d).map (·.2)) +
    (signalsOf k signal (m.inFlight .basic d cfg.root) +
      signalsOf k signal (m.inFlight .nccl d cfg.root))
  coming d signal := if signal = .doGroup then 0 else
    signalsOf k signal (m.inFlight .basic cfg.root d) +
      signalsOf k signal (m.inFlight .nccl cfg.root d)
  compressing := m.compressing.countP fun t => decide (t.key = k)
  table d name := ((m.pipeline d).tables name).readyTable k
  log := m.log.filter fun e => decide (e.key = k)

/-- The stages a device asks for: those with COMPRESS only for a tensor with a compressor. -/
def Config.AsksFor (cfg : Config) (d : ℕ) (stages : List QueueType) : Prop :=
  stages = stagesFor cfg.root d ∨
    d = cfg.root ∧ stages = compressedStages ∧ ∃ n, (cfg.context d n).compressors ≠ 0

theorem Config.AsksFor.allowed {cfg : Config} {d : ℕ} {stages : List QueueType}
    (h : cfg.AsksFor d stages) : AllowedStages cfg.root d stages :=
  h.imp_right fun hcompressed => ⟨hcompressed.1, hcompressed.2.1⟩

/-- What the processes of a machine are like throughout a run. -/
structure Sound (cfg : Config) (m : Machine) : Prop where
  reachable : ∀ d, Pipeline.Reachable (cfg.setup d) (m.pipeline d)
  stages : ∀ d, ∀ issue ∈ (m.pipeline d).issued, cfg.AsksFor d issue.stages
  one : ∀ d, (m.pipeline d).OneEach
  compressing : ∀ t ∈ m.compressing, t ∈ (m.pipeline cfg.root).taken ∧
    t.queueList.head? = some .compress
  grouped : ∀ d t, t ∈ m.group d ∨ t ∈ (m.ncclPipeline d).flatten →
    t.queueList.head? = some .reduce ∨ t.queueList.head? = some .broadcast
  signalling : ∀ d, ∀ x ∈ m.signalling d, ∃ name, tableOfSignal x.2.signal = some name
  toRoot : ∀ comm, ∀ d < cfg.root, ∀ msg ∈ m.inFlight comm d cfg.root,
    ∃ name, tableOfSignal msg.signal = some name
  toCopy : ∀ d < cfg.root, ∀ msg ∈ m.inFlight .basic cfg.root d,
    msg.src = cfg.root ∧ msg.signal = .doCopyH2D
  toCall : ∀ d < cfg.root, ∀ msg ∈ m.inFlight .nccl cfg.root d,
    msg.src = cfg.root ∧ (msg.signal = .doGroup ∨ ∃ op, stageOfCall msg.signal = some op)

/-- A step is followed by the view of every key. -/
structure Follows (cfg : Config) (m m' : Machine) : Prop where
  sound : m'.Sound cfg
  view : ∀ k, m'.view cfg k = m.view cfg k ∨
    KeyState.Step cfg.root k (m.view cfg k) (m'.view cfg k)

section Signals

variable {k : ℕ} {signal : CommSignal} {msg : CommMsg} {msgs msgs' : List CommMsg}

@[simp] theorem signalsOf_nil : signalsOf k signal [] = 0 := rfl

@[simp] theorem signalsOf_append :
    signalsOf k signal (msgs ++ msgs') = signalsOf k signal msgs + signalsOf k signal msgs' :=
  List.countP_append

@[simp] theorem signalsOf_cons : signalsOf k signal (msg :: msgs) =
    signalsOf k signal msgs + if msg.signal = signal ∧ msg.key = k then 1 else 0 := by
  unfold signalsOf
  rw [List.countP_cons]
  simp only [decide_eq_true_eq]

theorem signalsOf_pos (h : msg ∈ msgs) : 0 < signalsOf msg.key msg.signal msgs := by
  apply List.countP_pos_iff.mpr
  exact ⟨msg, h, by simp⟩

end Signals

/-! ### Sending -/

section Broadcast

variable {cfg : Config} {m : Machine} {k i : ℕ} {signal signal' : CommSignal} {comm : Comm}

theorem lt_localSize_iff (hsize : 2 ≤ cfg.localSize) :
    i < cfg.localSize ∧ i ≠ cfg.root ↔ i < cfg.root := by
  unfold Config.root
  omega

/-- What the root tells the others does not go to itself. -/
theorem inFlight_broadcast_root (msg : CommMsg) (hsrc : msg.src = cfg.root) (comm' : Comm) (d : ℕ) :
    (m.broadcastSignal cfg comm msg).inFlight comm' d cfg.root = m.inFlight comm' d cfg.root := by
  unfold broadcastSignal
  dsimp only
  rw [if_neg]
  intro h
  exact h.2.2.2 hsrc.symm

theorem inFlight_broadcast (hsize : 2 ≤ cfg.localSize) (msg : CommMsg) (hsrc : msg.src = cfg.root)
    (comm' : Comm) (i : ℕ) : (m.broadcastSignal cfg comm msg).inFlight comm' cfg.root i =
      m.inFlight comm' cfg.root i ++ if comm' = comm ∧ i < cfg.root then [msg] else [] := by
  unfold broadcastSignal
  dsimp only
  rw [hsrc]
  by_cases h : comm' = comm ∧ i < cfg.root
  · rw [if_pos h, if_pos ⟨h.1, rfl, (lt_localSize_iff hsize).mpr h.2⟩]
  · rw [if_neg h, if_neg fun h' => h ⟨h'.1, (lt_localSize_iff hsize).mp h'.2.2⟩, List.append_nil]

theorem sending_broadcast (cfg : Config) (m : Machine) (k : ℕ) (comm : Comm) (msg : CommMsg)
    (hsrc : msg.src = cfg.root) :
    ((m.broadcastSignal cfg comm msg).view cfg k).sending = (m.view cfg k).sending := by
  funext d signal
  unfold view
  dsimp only
  rw [inFlight_broadcast_root msg hsrc, inFlight_broadcast_root msg hsrc]
  rfl

/-- Every other device is told, on one of the sockets. -/
theorem coming_broadcast (m : Machine) (k : ℕ) (comm : Comm) (hsize : 2 ≤ cfg.localSize)
    (msg : CommMsg) (hsrc : msg.src = cfg.root)
    (hgroup : msg.signal ≠ .doGroup) (i : ℕ) (signal : CommSignal) :
    ((m.broadcastSignal cfg comm msg).view cfg k).coming i signal =
      (m.view cfg k).coming i signal +
        if i < cfg.root ∧ msg.signal = signal ∧ msg.key = k then 1 else 0 := by
  unfold view
  dsimp only
  rw [inFlight_broadcast hsize msg hsrc, inFlight_broadcast hsize msg hsrc]
  by_cases hnone : signal = .doGroup
  · rw [if_pos hnone, if_pos hnone, if_neg fun h => hgroup (h.2.1.trans hnone)]
  · rw [if_neg hnone, if_neg hnone]
    by_cases hi : i < cfg.root
    · cases comm <;> simp [hi] <;> omega
    · simp [hi]

/-- The end of a group is about no key. -/
theorem coming_broadcast_group (m : Machine) (k : ℕ) (comm : Comm) (hsize : 2 ≤ cfg.localSize)
    (msg : CommMsg) (hsrc : msg.src = cfg.root) (hgroup : msg.signal = .doGroup) :
    ((m.broadcastSignal cfg comm msg).view cfg k).coming = (m.view cfg k).coming := by
  funext i signal
  unfold view
  dsimp only
  rw [inFlight_broadcast hsize msg hsrc, inFlight_broadcast hsize msg hsrc]
  by_cases hnone : signal = .doGroup
  · rw [if_pos hnone, if_pos hnone]
  · rw [if_neg hnone, if_neg hnone]
    have hne : msg.signal ≠ signal := fun h => hnone (h.symm.trans hgroup)
    have hzero (p : Prop) [Decidable p] : signalsOf k signal (if p then [msg] else []) = 0 := by
      split
      · simp [hne]
      · rfl
    rw [signalsOf_append, signalsOf_append, hzero, hzero]
    rfl

end Broadcast

/-! ### What is known of a task -/

namespace Sound

variable {cfg : Config} {m : Machine} {d : ℕ} {x : Place × Task} {op : QueueType} {t : Task}

/-- What is left of a task is the end of the stages that were asked for. -/
theorem asked (h : m.Sound cfg) (hx : x ∈ (m.pipeline d).places) :
    x.2.queueList ≠ [] ∧ ∃ stages, cfg.AsksFor d stages ∧ x.2.queueList <:+ stages := by
  obtain ⟨call, issue, hstands⟩ := (h.reachable d).inv.stands x hx
  refine ⟨hstands.left, issue.stages, ?_, ?_⟩
  · exact h.stages d issue (List.mem_of_getElem? hstands.issued)
  · exact ⟨_, hstands.stages⟩

/-- What is left of a task is the end of its stages. -/
theorem left (h : m.Sound cfg) (hx : x ∈ (m.pipeline d).places) :
    x.2.queueList ≠ [] ∧ ∃ stages, AllowedStages cfg.root d stages ∧ x.2.queueList <:+ stages := by
  obtain ⟨hne, stages, hasks, hleft⟩ := h.asked hx
  exact ⟨hne, stages, hasks.allowed, hleft⟩

theorem head_of_queue (h : m.Sound cfg) (ht : t ∈ ((m.pipeline d).queues op).sq) :
    t.queueList.head? = some op := by
  obtain ⟨call, issue, hstands⟩ := (h.reachable d).inv.stands _ (mem_places_of_queue ht)
  exact hstands.queue op rfl

/-- What the thread pool compresses has the push before it. -/
theorem compress_tail (h : m.Sound cfg) (hx : x ∈ (m.pipeline d).places)
    (hhead : x.2.queueList.head? = some .compress) :
    d = cfg.root ∧ ∃ rest, x.2.queueList = .compress :: .push :: rest := by
  obtain ⟨_, stages, hstages, hleft⟩ := h.left hx
  have htails : ∀ left ∈ compressedStages.tails, left.head? = some .compress →
      left = [.compress, .push, .pull, .decompress, .copyH2D, .broadcast] := by decide
  rcases hstages with hstages | ⟨hroot, hstages⟩
  · obtain ⟨rest, hrest⟩ := List.head?_eq_some_iff.mp hhead
    have hmem : QueueType.compress ∈ stagesFor cfg.root d := by
      rw [← hstages]
      exact hleft.subset (by rw [hrest]; exact List.mem_cons_self)
    have hno : QueueType.compress ∉ rootStages ∧ QueueType.compress ∉ peerStages := by decide
    unfold stagesFor at hmem
    split at hmem
    · exact absurd hmem hno.1
    · exact absurd hmem hno.2
  · rw [hstages] at hleft
    have heq := htails _ ((List.mem_tails _ _).mpr hleft) hhead
    exact ⟨hroot, _, heq⟩

end Sound

/-! ### A device goes on

Most steps change one process.  `DeviceStep` is the machine after such a step, and the lemmas
say what that is for each part of a view.
-/

section Device

variable {cfg : Config} {m m' : Machine} {d : ℕ} {s : Pipeline}

/-- The processes after one of them has taken a step. -/
structure DeviceStep (cfg : Config) (m m' : Machine) (d : ℕ) (s : Pipeline) : Prop where
  pipeline : m'.pipeline = Function.update m.pipeline d s
  reachable : Pipeline.Reachable (cfg.setup d) s
  issued : ∀ issue ∈ s.issued, cfg.AsksFor d issue.stages
  one : s.OneEach

theorem DeviceStep.at (h : DeviceStep cfg m m' d s) : m'.pipeline d = s := by
  rw [h.pipeline]
  exact Function.update_self ..

theorem DeviceStep.of_ne (h : DeviceStep cfg m m' d s) {d' : ℕ} (hd : d' ≠ d) :
    m'.pipeline d' = m.pipeline d' := by
  rw [h.pipeline]
  exact Function.update_of_ne hd ..

/-- What holds of every process holds of the one, and of the others still. -/
theorem DeviceStep.forall (h : DeviceStep cfg m m' d s) {P : ℕ → Pipeline → Prop}
    (hP : ∀ d, P d (m.pipeline d)) (hs : P d s) (d' : ℕ) : P d' (m'.pipeline d') := by
  by_cases hd : d' = d
  · rw [hd, h.at]
    exact hs
  · rw [h.of_ne hd]
    exact hP d'

theorem DeviceStep.view_position (h : DeviceStep cfg m m' d s) (k : ℕ) :
    (m'.view cfg k).position = Function.update (m.view cfg k).position d (s.position k) := by
  funext d'
  change (m'.pipeline d').position k = _
  by_cases hd : d' = d
  · rw [hd, h.at, Function.update_self]
  · rw [h.of_ne hd, Function.update_of_ne hd]
    rfl

theorem DeviceStep.view_table (h : DeviceStep cfg m m' d s) (k d' : ℕ) (name : TableName) :
    (m'.view cfg k).table d' name =
      if d' = d then (s.tables name).readyTable k else (m.view cfg k).table d' name := by
  change ((m'.pipeline d').tables name).readyTable k = _
  by_cases hd : d' = d
  · rw [hd, h.at, if_pos rfl]
  · rw [h.of_ne hd, if_neg hd]
    rfl

/-- Nothing has changed at the device that the view shows. -/
theorem DeviceStep.view_position_same (h : DeviceStep cfg m m' d s) {k : ℕ}
    (hsame : s.position k = (m.pipeline d).position k) :
    (m'.view cfg k).position = (m.view cfg k).position := by
  rw [h.view_position, hsame]
  exact Function.update_eq_self d (m.view cfg k).position

theorem DeviceStep.view_table_same (h : DeviceStep cfg m m' d s) {k : ℕ}
    (hsame : ∀ name, (s.tables name).readyTable k = ((m.pipeline d).tables name).readyTable k) :
    (m'.view cfg k).table = (m.view cfg k).table := by
  funext d' name
  rw [h.view_table]
  split
  · rename_i hd
    rw [hsame, hd]
    rfl
  · rfl

/--
A step of one process leaves the others as they are, and what their loops have with them; what
the thread pool compresses has to stay with the loop, and nothing new may be on its way.
-/
theorem Sound.of_step (h : m.Sound cfg) (hstep : DeviceStep cfg m m' d s)
    (hcompressing : ∀ u ∈ m'.compressing,
      u ∈ m.compressing ∧ (u ∈ (m.pipeline d).taken → u ∈ s.taken))
    (hgrouped : ∀ d t, t ∈ m'.group d ∨ t ∈ (m'.ncclPipeline d).flatten →
      t.queueList.head? = some .reduce ∨ t.queueList.head? = some .broadcast)
    (hsignalling : ∀ d, ∀ x ∈ m'.signalling d, ∃ name, tableOfSignal x.2.signal = some name)
    (hinFlight : ∀ comm src dst, ∀ msg ∈ m'.inFlight comm src dst, msg ∈ m.inFlight comm src dst) :
    m'.Sound cfg := by
  refine ⟨?_, ?_, ?_, ?_, hgrouped, hsignalling, ?_, ?_, ?_⟩
  · exact hstep.forall h.reachable hstep.reachable
  · exact hstep.forall (P := fun d s => ∀ issue ∈ s.issued, cfg.AsksFor d issue.stages)
      h.stages hstep.issued
  · exact hstep.forall (P := fun _ s => s.OneEach) h.one hstep.one
  · intro u hu
    obtain ⟨hold, hstays⟩ := hcompressing u hu
    obtain ⟨htaken, hhead⟩ := h.compressing u hold
    refine ⟨?_, hhead⟩
    by_cases hroot : cfg.root = d
    · rw [hroot, hstep.at]
      exact hstays (hroot ▸ htaken)
    · rw [hstep.of_ne hroot]
      exact htaken
  · intro comm d' hd' msg hmsg
    exact h.toRoot comm d' hd' msg (hinFlight _ _ _ msg hmsg)
  · intro d' hd' msg hmsg
    exact h.toCopy d' hd' msg (hinFlight _ _ _ msg hmsg)
  · intro d' hd' msg hmsg
    exact h.toCall d' hd' msg (hinFlight _ _ _ msg hmsg)

theorem view_log_cons (cfg : Config) (e : Event) (hlog : m'.log = e :: m.log) (k : ℕ) :
    (m'.view cfg k).log =
      if e.key = k then e :: (m.view cfg k).log else (m.view cfg k).log := by
  unfold view
  dsimp only
  rw [hlog, List.filter_cons]
  simp only [decide_eq_true_eq]

end Device
/-! ### Signals come and go

Signals are read in the order they were written, by sender and receiver.  A view forgets the
order between signals of different keys, and the order within a key is not needed.
-/

section Receive

/-- The root has received a signal. -/
theorem sending_receive (cfg : Config) (m : Machine) (k : ℕ) {d : ℕ} {comm : Comm} {msg : CommMsg}
    {msgs : List CommMsg} (hmsgs : m.inFlight comm d cfg.root = msg :: msgs) (i : ℕ)
    (signal : CommSignal) : (m.view cfg k).sending i signal =
      ((m.setInFlight comm d cfg.root msgs).view cfg k).sending i signal +
        if (i = d ∧ signal = msg.signal) ∧ msg.key = k then 1 else 0 := by
  unfold view setInFlight
  dsimp only
  by_cases hi : i = d
  · subst hi
    cases comm with
    | basic =>
        rw [hmsgs]
        simp [eq_comm]
        omega
    | nccl =>
        rw [hmsgs]
        simp [eq_comm]
        omega
  · simp [hi]

theorem coming_receive_root (cfg : Config) (m : Machine) (k : ℕ) {d : ℕ} (comm : Comm)
    (hd : d ≠ cfg.root) (msgs : List CommMsg) :
    ((m.setInFlight comm d cfg.root msgs).view cfg k).coming = (m.view cfg k).coming := by
  funext i signal
  have hother (comm' : Comm) : ¬(comm' = comm ∧ cfg.root = d ∧ i = cfg.root) :=
    fun h => hd h.2.1.symm
  unfold view setInFlight
  dsimp only
  rw [if_neg (hother .basic), if_neg (hother .nccl)]

/-- Another device has received a signal. -/
theorem coming_receive (cfg : Config) (m : Machine) (k : ℕ) {d : ℕ} {comm : Comm} {msg : CommMsg}
    {msgs : List CommMsg} (hmsgs : m.inFlight comm cfg.root d = msg :: msgs) (i : ℕ)
    (signal : CommSignal) : (m.view cfg k).coming i signal =
      ((m.setInFlight comm cfg.root d msgs).view cfg k).coming i signal +
        if (i = d ∧ signal = msg.signal) ∧ signal ≠ .doGroup ∧ msg.key = k then 1 else 0 := by
  unfold view setInFlight
  dsimp only
  by_cases hnone : signal = .doGroup
  · rw [if_pos hnone, if_pos hnone, if_neg fun h => h.2.1 hnone]
  · rw [if_neg hnone, if_neg hnone]
    by_cases hi : i = d
    · subst hi
      cases comm with
      | basic =>
          rw [hmsgs]
          simp [eq_comm, hnone]
          omega
      | nccl =>
          rw [hmsgs]
          simp [eq_comm, hnone]
          omega
    · simp [hi]

/-- What is to come of the key a signal is about, and of every other key. -/
theorem coming_receive_key (cfg : Config) (m : Machine) {d : ℕ} {comm : Comm} {msg : CommMsg}
    {msgs : List CommMsg} (hmsgs : m.inFlight comm cfg.root d = msg :: msgs)
    (hgroup : msg.signal ≠ .doGroup) :
    0 < (m.view cfg msg.key).coming d msg.signal ∧
      ((m.setInFlight comm cfg.root d msgs).view cfg msg.key).coming = fun i signal =>
        if i = d ∧ signal = msg.signal then (m.view cfg msg.key).coming i signal - 1
        else (m.view cfg msg.key).coming i signal := by
  constructor
  · have hpos := coming_receive cfg m msg.key hmsgs d msg.signal
    rw [if_pos ⟨⟨rfl, rfl⟩, hgroup, rfl⟩] at hpos
    omega
  · funext i signal
    rw [coming_receive cfg m msg.key hmsgs]
    by_cases hboth : i = d ∧ signal = msg.signal
    · rw [if_pos hboth, if_pos ⟨hboth, fun h => hgroup (hboth.2.symm.trans h), rfl⟩]
      rfl
    · rw [if_neg hboth, if_neg fun h => hboth h.1]
      rfl

theorem coming_receive_ne (cfg : Config) (m : Machine) {k d : ℕ} {comm : Comm} {msg : CommMsg}
    {msgs : List CommMsg} (hmsgs : m.inFlight comm cfg.root d = msg :: msgs) (hk : msg.key ≠ k) :
    ((m.setInFlight comm cfg.root d msgs).view cfg k).coming = (m.view cfg k).coming := by
  funext i signal
  rw [coming_receive cfg m k hmsgs, if_neg fun h => hk h.2.2]
  rfl

theorem sending_receive_peer (cfg : Config) (m : Machine) (k : ℕ) {d : ℕ} (comm : Comm)
    (hd : d ≠ cfg.root) (msgs : List CommMsg) :
    ((m.setInFlight comm cfg.root d msgs).view cfg k).sending = (m.view cfg k).sending := by
  funext i signal
  have hother (comm' : Comm) : ¬(comm' = comm ∧ i = cfg.root ∧ cfg.root = d) :=
    fun h => hd h.2.2.symm
  unfold view setInFlight
  dsimp only
  rw [if_neg (hother .basic), if_neg (hother .nccl)]

/-- What is left on its way was on its way. -/
theorem mem_of_receive {m : Machine} {src d : ℕ} {comm : Comm} {msg : CommMsg} {msgs : List CommMsg}
    (hmsgs : m.inFlight comm src d = msg :: msgs) (comm' : Comm) (src' dst' : ℕ) :
    ∀ msg' ∈ (m.setInFlight comm src d msgs).inFlight comm' src' dst',
      msg' ∈ m.inFlight comm' src' dst' := by
  intro msg' h
  unfold setInFlight at h
  dsimp only at h
  split at h
  · rename_i heq
    rw [heq.1, heq.2.1, heq.2.2, hmsgs]
    exact List.mem_cons_of_mem _ h
  · exact h

end Receive

end Machine

end DeepInc.Worker
