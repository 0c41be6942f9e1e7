/-
The loops of a device take tasks and hand them back.

These are the steps that move a task.  A loop takes a task by the count of its stage, which it
clears, and may tell the other devices of it: the root has them make the same call, or tells
them that they may copy.  When the loop is done with the task, the next stage has it, and a
device that is not the root may have a signal to send.

Every loop of the source is a function of its own, and most of them differ in the stage only.
What they have in common is split in two: a task is taken, which is one lemma, and something is
done with it, which is `Body`.

For each step it is shown that the view of the task's key takes a step of `KeyRounds.lean`, that
the views of all other keys stay, and that the machine is sound afterwards.  The last is where
most of the work is, since a task that is taken may join a group or go to the thread pool.

Tensors come in by these steps as well: a call of `EnqueueTensor` concerns no key, and adding a
task begins a round of its key.
-/
import DeepInc.Proofs.Worker.Devices

namespace DeepInc.Worker

open Transition Outcome

namespace Machine

/-! ### A task is taken -/

section Take

variable {cfg : Config} {m m' : Machine} {d : ℕ} {s : Pipeline} {op : QueueType} {t : Task}
  {q : ScheduledQueue} {tables : TableName → ReadyTable} {now : ℤ}

/-- What taking a task does to its device. -/
structure Taken (s s' : Pipeline) (op : QueueType) (t : Task) (tables : TableName → ReadyTable) :
    Prop where
  one : s'.OneEach
  other : ∀ k, k ≠ t.key → s'.position k = s.position k
  position : ∃ rest, t.queueList = op :: rest ∧ s.position t.key = (op :: rest, false) ∧
    s'.position t.key = (op :: rest, true)
  tables : s'.tables = tables
  issued : s'.issued = s.issued
  taken : s'.taken = { t with readyEvent := none } :: s.taken

theorem Sound.taken (h : m.Sound cfg) (hperm : ((m.pipeline d).queues op).sq.Perm (t :: q.sq))
    (htake : take { m.pipeline d with tables := tables } op q { t with readyEvent := none } now =
      .ok s) : Taken (m.pipeline d) s op t tables := by
  obtain ⟨R, hbefore, hafter⟩ := places_take hperm htake
  have hin : t ∈ ((m.pipeline d).queues op).sq := hperm.mem_iff.mpr List.mem_cons_self
  obtain ⟨rest, hrest⟩ := List.head?_eq_some_iff.mp (h.head_of_queue hin)
  obtain ⟨hat, hnone⟩ := (h.one d).at hbefore rfl
  obtain ⟨hone, hother, hself⟩ := (h.one d).moved hbefore hafter rfl rfl hnone
  obtain ⟨p, _, rfl⟩ := take_cases htake
  refine ⟨hone, hother, ⟨rest, hrest, ?_, ?_⟩, rfl, rfl, rfl⟩
  · rw [hat]
    exact Prod.ext hrest rfl
  · rw [hself]
    exact Prod.ext hrest rfl

/-- Taking a task clears the count of its key, in the table of the stage. -/
theorem Taken.readyTable {s s' : Pipeline} {role : Role} (h : Taken s s' op t fun name =>
      if readyTableOf role op = some name then (s.tables name).clearReadyCount t.key
      else s.tables name)
    (k : ℕ) (name : TableName) : (s'.tables name).readyTable k =
      if readyTableOf role op = some name ∧ t.key = k then 0 else (s.tables name).readyTable k := by
  rw [h.tables]
  dsimp only
  by_cases hname : readyTableOf role op = some name
  · rw [if_pos hname]
    change Function.update _ t.key 0 k = _
    rw [Function.update_apply]
    simp [hname, eq_comm]
  · rw [if_neg hname, if_neg fun h => hname h.1]

/-- The thread pool has what the compress loop takes. -/
theorem compressing_take (cfg : Config) (hcompressing : m'.compressing.map (·.key) =
      if op = .compress then t.key :: m.compressing.map (·.key) else m.compressing.map (·.key))
    (k : ℕ) : (m'.view cfg k).compressing =
      (m.view cfg k).compressing + if op = .compress ∧ t.key = k then 1 else 0 := by
  have hkeys (ts : List Task) : ts.countP (fun t => decide (t.key = k)) =
      (ts.map (·.key)).countP fun key => decide (key = k) := by
    rw [List.countP_map]
    rfl
  unfold view
  dsimp only
  rw [hkeys, hkeys, hcompressing]
  by_cases hop : op = .compress
  · rw [if_pos hop, List.countP_cons]
    simp [hop]
  · rw [if_neg hop, if_neg fun h => hop h.1]
    rfl

/-- A loop takes a task by the table of its stage. -/
theorem view_take (hsize : 2 ≤ cfg.localSize) (hd : d ≤ cfg.root)
    (htaken : Taken (m.pipeline d) s op t
      (fun name => if readyTableOf (cfg.role d) op = some name then
        ((m.pipeline d).tables name).clearReadyCount t.key else (m.pipeline d).tables name))
    (hstep : DeviceStep cfg m m' d s) (hloop : d = cfg.root ∨ op ≠ .reduce ∧ op ≠ .broadcast)
    (hready : ∀ name, readyTableOf (cfg.role d) op = some name →
      ((m.pipeline d).tables name).readyTable t.key = cfg.readyCount name)
    (hsending : ∀ k, (m'.view cfg k).sending = (m.view cfg k).sending)
    (hcoming : ∀ k i signal, (m'.view cfg k).coming i signal = (m.view cfg k).coming i signal +
      if (d = cfg.root ∧ i < cfg.root ∧ KeyState.callOf op = some signal) ∧ t.key = k then 1 else 0)
    (hcompressing : m'.compressing.map (·.key) =
      if op = .compress then t.key :: m.compressing.map (·.key) else m.compressing.map (·.key))
    (hlog : m'.log = .got d op t.key :: m.log) (k : ℕ) :
    m'.view cfg k = m.view cfg k ∨
      KeyState.Step cfg.root k (m.view cfg k) (m'.view cfg k) := by
  have hcount := compressing_take cfg hcompressing k
  have htables := htaken.readyTable k
  have hlog := view_log_cons cfg _ hlog k
  by_cases hk : t.key = k
  · right
    subst hk
    obtain ⟨rest, _, hbefore, hafter⟩ := htaken.position
    have heq : m'.view cfg t.key = { m.view cfg t.key with
        position := Function.update (m.view cfg t.key).position d (op :: rest, true)
        table := fun d' name => if d' = d ∧ KeyState.tableAt cfg.root d op = some name then 0
          else (m.view cfg t.key).table d' name
        coming := fun i signal =>
          if d = cfg.root ∧ i < cfg.root ∧ KeyState.callOf op = some signal then
            (m.view cfg t.key).coming i signal + 1
          else (m.view cfg t.key).coming i signal
        compressing := if op = .compress then (m.view cfg t.key).compressing + 1
          else (m.view cfg t.key).compressing
        log := .got d op t.key :: (m.view cfg t.key).log } := by
      refine KeyState.ext ?_ (hsending _) ?_ ?_ ?_ ?_
      · rw [hstep.view_position, hafter]
      · funext i signal
        rw [hcoming]
        simp only [and_true]
        split
        · rfl
        · rfl
      · rw [hcount]
        simp only [and_true]
        split
        · rfl
        · rfl
      · funext d' name
        rw [hstep.view_table, htables]
        by_cases hd' : d' = d
        · subst hd'
          simp only [true_and, and_true, if_true]
          rfl
        · simp only [hd', false_and, if_false]
      · rw [hlog]
        exact if_pos rfl
    rw [heq]
    refine .take d op rest hd hbefore hloop ?_
    intro name hname
    have hfull := hready name hname
    have hcounts : cfg.readyCount name = KeyState.readyAt cfg.root name := by
      unfold Config.readyCount KeyState.readyAt Config.root
      cases name <;> dsimp only <;> omega
    exact hfull.trans hcounts
  · left
    refine KeyState.ext ?_ (hsending k) ?_ ?_ ?_ ?_
    · exact hstep.view_position_same (htaken.other k (Ne.symm hk))
    · funext i signal
      rw [hcoming, if_neg fun h => hk h.2, Nat.add_zero]
    · rw [hcount, if_neg fun h => hk h.2, Nat.add_zero]
    · refine hstep.view_table_same ?_
      intro name
      rw [htables, if_neg fun h => hk h.2]
    · rw [hlog]
      exact if_neg hk

/-- The socket of what the root tells the others. -/
def commOf : CommSignal → Comm
  | .doCopyH2D => .basic
  | _ => .nccl

/-- What a loop does with a task it has taken. -/
structure Body (cfg : Config) (d : ℕ) (op : QueueType) (t : Task) (m m' : Machine) : Prop where
  pipeline : m'.pipeline = m.pipeline
  signalling : m'.signalling = m.signalling
  log : m'.log = m.log
  ncclPipeline : m'.ncclPipeline = m.ncclPipeline
  compressing : m'.compressing = if op = .compress then t :: m.compressing else m.compressing
  group : m'.group = m.group ∨
    (op = .reduce ∨ op = .broadcast) ∧ m'.group = Function.update m.group d (m.group d ++ [t])
  inFlight : (d ≠ cfg.root ∨ KeyState.callOf op = none) ∧ m'.inFlight = m.inFlight ∨
    d = cfg.root ∧ ∃ signal, KeyState.callOf op = some signal ∧
      m'.inFlight = (m.broadcastSignal cfg (commOf signal) ⟨cfg.root, signal, t.key⟩).inFlight

theorem callOf_ne_doGroup {op : QueueType} {signal : CommSignal}
    (h : KeyState.callOf op = some signal) : signal ≠ .doGroup := by
  intro heq
  rw [heq] at h
  cases op <;> cases h

namespace Body

variable (h : Body cfg d op t m m')

include h

theorem sending (k : ℕ) : (m'.view cfg k).sending = (m.view cfg k).sending := by
  rcases h.inFlight with ⟨_, hsame⟩ | ⟨_, signal, _, hsame⟩
  · unfold view
    dsimp only
    rw [h.signalling, hsame]
  · have hbroadcast := sending_broadcast cfg m k (commOf signal) ⟨cfg.root, signal, t.key⟩ rfl
    rw [← hbroadcast]
    unfold view
    dsimp only
    rw [h.signalling, hsame]
    rfl

theorem coming (hsize : 2 ≤ cfg.localSize) (k i : ℕ) (signal : CommSignal) :
    (m'.view cfg k).coming i signal = (m.view cfg k).coming i signal +
      if (d = cfg.root ∧ i < cfg.root ∧ KeyState.callOf op = some signal) ∧ t.key = k then 1
      else 0 := by
  rcases h.inFlight with ⟨hnone, hsame⟩ | ⟨hroot, signal', hcall, hsame⟩
  · rw [if_neg, Nat.add_zero]
    · unfold view
      dsimp only
      rw [hsame]
    · intro hall
      rcases hnone with hne | hnone
      · exact hne hall.1.1
      · rw [hnone] at hall
        cases hall.1.2.2
  · have hbroadcast := coming_broadcast m k (commOf signal') hsize ⟨cfg.root, signal', t.key⟩ rfl
      (callOf_ne_doGroup hcall) i signal
    have heq : (m'.view cfg k).coming i signal = ((m.broadcastSignal cfg (commOf signal')
        ⟨cfg.root, signal', t.key⟩).view cfg k).coming i signal := by
      unfold view
      dsimp only
      rw [hsame]
    rw [heq, hbroadcast, hcall]
    simp only [hroot, true_and, Option.some_inj, and_assoc]

omit h in
/-- What is on its way to the root is as before. -/
theorem inFlight_root (h : Body cfg d op t m m') (comm : Comm) (i : ℕ) :
    m'.inFlight comm i cfg.root = m.inFlight comm i cfg.root := by
  rcases h.inFlight with ⟨_, hsame⟩ | ⟨_, signal, _, hsame⟩
  · rw [hsame]
  · rw [hsame]
    exact inFlight_broadcast_root _ rfl comm i

/-- What is on its way from the root was there before, or is told now. -/
theorem inFlight_peer (hsize : 2 ≤ cfg.localSize) {comm : Comm} {i : ℕ} {msg : CommMsg}
    (hmsg : msg ∈ m'.inFlight comm cfg.root i) : msg ∈ m.inFlight comm cfg.root i ∨
      ∃ signal, KeyState.callOf op = some signal ∧ comm = commOf signal ∧
        msg = ⟨cfg.root, signal, t.key⟩ := by
  rcases h.inFlight with ⟨_, hsame⟩ | ⟨_, signal, hcall, hsame⟩
  · rw [hsame] at hmsg
    exact .inl hmsg
  · rw [hsame, inFlight_broadcast hsize _ rfl] at hmsg
    rcases List.mem_append.mp hmsg with hmsg | hmsg
    · exact .inl hmsg
    · split at hmsg
      · rename_i hcomm
        exact .inr ⟨signal, hcall, hcomm.1, List.mem_singleton.mp hmsg⟩
      · cases hmsg

end Body

/-- What the root tells the others is to copy, or to make a call. -/
theorem callOf_cases {op : QueueType} {signal : CommSignal}
    (h : KeyState.callOf op = some signal) :
    signal = .doCopyH2D ∧ commOf signal = .basic ∨
      commOf signal = .nccl ∧ ∃ op, stageOfCall signal = some op := by
  cases op <;> cases h
  · exact .inr ⟨rfl, _, rfl⟩
  · exact .inl ⟨rfl, rfl⟩
  · exact .inr ⟨rfl, _, rfl⟩

/-- A group of tasks for NCCL calls gets one more. -/
theorem Sound.grouped_add (h : m.Sound cfg)
    (hgroup : m'.group = Function.update m.group d (m.group d ++ [t]))
    (hhead : t.queueList.head? = some op) (hop : op = .reduce ∨ op = .broadcast)
    (hnccl : m'.ncclPipeline = m.ncclPipeline) (d' : ℕ) (u : Task)
    (hu : u ∈ m'.group d' ∨ u ∈ (m'.ncclPipeline d').flatten) :
    u.queueList.head? = some .reduce ∨ u.queueList.head? = some .broadcast := by
  rw [hgroup, hnccl, Function.update_apply] at hu
  by_cases hd' : d' = d
  · rw [if_pos hd', List.mem_append, List.mem_singleton] at hu
    rcases hu with (hu | hu) | hu
    · exact h.grouped d u (.inl hu)
    · rw [hu]
      rcases hop with rfl | rfl
      · exact .inl hhead
      · exact .inr hhead
    · exact h.grouped d' u (.inr hu)
  · rw [if_neg hd'] at hu
    exact h.grouped d' u hu

/-- What the thread pool compresses has been taken, and stays so. -/
theorem Sound.compressing_take (h : m.Sound cfg) (htaken : Taken (m.pipeline d) s op t tables)
    (hhead : t.queueList.head? = some op) (hstep : DeviceStep cfg m m' d s)
    (hin : t ∈ ((m.pipeline d).queues op).sq)
    (hcompressing : m'.compressing = if op = .compress then
      { t with readyEvent := none } :: m.compressing else m.compressing) :
    ∀ u ∈ m'.compressing,
      u ∈ (m'.pipeline cfg.root).taken ∧ u.queueList.head? = some .compress := by
  have hold : ∀ u ∈ m.compressing, u ∈ (m'.pipeline cfg.root).taken ∧
      u.queueList.head? = some .compress := by
    intro u hu
    obtain ⟨hmem, hcompress⟩ := h.compressing u hu
    refine ⟨?_, hcompress⟩
    by_cases hd : cfg.root = d
    · rw [hd, hstep.at, htaken.taken]
      exact List.mem_cons_of_mem _ (hd ▸ hmem)
    · rw [hstep.of_ne hd]
      exact hmem
  intro u hu
  rw [hcompressing] at hu
  by_cases hop : op = .compress
  · rw [if_pos hop] at hu
    rcases List.mem_cons.mp hu with heq | hu
    · rw [hop] at hhead
      have hroot := (h.compress_tail (mem_places_of_queue hin) hhead).1
      rw [heq, ← hroot, hstep.at, htaken.taken]
      exact ⟨List.mem_cons_self, hhead⟩
    · exact hold u hu
  · rw [if_neg hop] at hu
    exact hold u hu

/-- The processes are as they were, and the one has taken a task. -/
theorem Sound.take (hsize : 2 ≤ cfg.localSize) (h : m.Sound cfg)
    (htaken : Taken (m.pipeline d) s op t tables) (hhead : t.queueList.head? = some op)
    (hstep : DeviceStep cfg m m' d s) (hin : t ∈ ((m.pipeline d).queues op).sq)
    {m₁ : Machine} (hm₁ : m₁.pipeline = m'.pipeline ∧ m₁.signalling = m.signalling ∧
      m₁.ncclPipeline = m.ncclPipeline ∧ m₁.compressing = m.compressing ∧ m₁.group = m.group ∧
      m₁.inFlight = m.inFlight)
    (hbody : Body cfg d op { t with readyEvent := none } m₁ m') : m'.Sound cfg := by
  obtain ⟨_, hsignalling, hnccl, hcompressing, hgroup, hinFlight⟩ := hm₁
  constructor
  · exact hstep.forall h.reachable hstep.reachable
  · exact hstep.forall (P := fun d s => ∀ issue ∈ s.issued, cfg.AsksFor d issue.stages)
      h.stages hstep.issued
  · exact hstep.forall (P := fun _ s => s.OneEach) h.one hstep.one
  · refine h.compressing_take htaken hhead hstep hin ?_
    rw [hbody.compressing, hcompressing]
  · rcases hbody.group with hsame | ⟨hop, hadd⟩
    · rw [hbody.ncclPipeline, hnccl, hsame, hgroup]
      exact h.grouped
    · rw [hgroup] at hadd
      exact h.grouped_add hadd hhead hop (hbody.ncclPipeline.trans hnccl)
  · rw [hbody.signalling, hsignalling]
    exact h.signalling
  · intro comm d' hd' msg hmsg
    rw [hbody.inFlight_root, hinFlight] at hmsg
    exact h.toRoot comm d' hd' msg hmsg
  · intro d' hd' msg hmsg
    rcases hbody.inFlight_peer hsize hmsg with hmsg | ⟨signal, hcall, hcomm, rfl⟩
    · rw [hinFlight] at hmsg
      exact h.toCopy d' hd' msg hmsg
    · rcases callOf_cases hcall with ⟨hsignal, _⟩ | ⟨hnccl, _⟩
      · exact ⟨rfl, hsignal⟩
      · rw [hnccl] at hcomm
        cases hcomm
  · intro d' hd' msg hmsg
    rcases hbody.inFlight_peer hsize hmsg with hmsg | ⟨signal, hcall, hcomm, rfl⟩
    · rw [hinFlight] at hmsg
      exact h.toCall d' hd' msg hmsg
    · rcases callOf_cases hcall with ⟨_, hbasic⟩ | ⟨_, hstage⟩
      · rw [hbasic] at hcomm
        cases hcomm
      · exact ⟨rfl, .inr hstage⟩

theorem takeTask_follows (hsize : 2 ≤ cfg.localSize) (h : m.Sound cfg) (hd : d ≤ cfg.root)
    {ready : ℕ → Bool} {body : Machine → Task → Machine}
    (hloop : d = cfg.root ∨ op ≠ .reduce ∧ op ≠ .broadcast)
    (hbody : ∀ m t, Body cfg d op t m (body m t))
    (hs : takeTask cfg m d ready now op body = .ok m') : Follows cfg m m' := by
  unfold takeTask at hs
  dsimp only at hs
  split at hs
  · cases hs
    exact ⟨h, fun k => .inl rfl⟩
  · rename_i t' q rt hget
    obtain ⟨s, htake, hs⟩ := bind_eq_ok hs
    obtain ⟨t, rfl, hperm, heligible, hrt, _⟩ := ScheduledQueue.getTask_spec hget
    have hin : t ∈ ((m.pipeline d).queues op).sq := hperm.mem_iff.mpr List.mem_cons_self
    have hrun : (m.pipeline d).step (cfg.setup d) (.getTask op ready now) = .ok s := by
      change runGetTask (cfg.setup d) (m.pipeline d) op ready now = .ok s
      unfold runGetTask
      rw [hget]
      exact htake
    obtain ⟨tables, htables⟩ := setTable_eq (cfg.setup d) (m.pipeline d) op rt
    rw [htables] at htake
    have htaken := h.taken hperm htake
    have hclear : tables = fun name => if readyTableOf (cfg.role d) op = some name then
        ((m.pipeline d).tables name).clearReadyCount t.key else (m.pipeline d).tables name := by
      funext name
      have hname := tables_setTable (cfg.setup d) (m.pipeline d) op (·.clearReadyCount t.key) name
      rw [← hrt, htables] at hname
      exact hname
    rw [hclear] at htaken
    have hb := hbody ((m.setPipeline d s).record (.got d op t.key)) { t with readyEvent := none }
    have hm' : body ((m.setPipeline d s).record (.got d op t.key))
        { t with readyEvent := none } = m' :=
      Except.ok.inj hs
    rw [hm'] at hb
    have hstep : DeviceStep cfg m m' d s :=
      { pipeline := hb.pipeline
        reachable := .next (h.reachable d) hrun
        issued := by
          rw [htaken.issued]
          exact h.stages d
        one := htaken.one }
    constructor
    · exact h.take hsize htaken (h.head_of_queue hin) hstep hin
        ⟨hb.pipeline.symm, rfl, rfl, rfl, rfl, rfl⟩ hb
    · refine view_take hsize hd htaken hstep hloop ?_ ?_ ?_ ?_ ?_
      · intro name hname
        unfold ScheduledQueue.eligible tableOf at heligible
        have hrole : (cfg.setup d).role = cfg.role d := rfl
        rw [hrole, hname] at heligible
        have hfull := (Bool.and_eq_true_iff.mp heligible).2
        have hcount := (h.reachable d).readyCount name
        exact (of_decide_eq_true hfull).trans hcount
      · exact hb.sending
      · exact hb.coming hsize
      · rw [hb.compressing]
        split
        · rfl
        · rfl
      · exact hb.log

/-- A loop that does nothing yet. -/
theorem Body.nothing (hop : op ≠ .compress) (hcall : d ≠ cfg.root ∨ KeyState.callOf op = none)
    (m : Machine) (t : Task) : Body cfg d op t m m where
  pipeline := rfl
  signalling := rfl
  log := rfl
  ncclPipeline := rfl
  compressing := (if_neg hop).symm
  group := .inl rfl
  inFlight := .inl ⟨hcall, rfl⟩

theorem Body.compress (m : Machine) (t : Task) :
    Body cfg d .compress t m { m with compressing := t :: m.compressing } where
  pipeline := rfl
  signalling := rfl
  log := rfl
  ncclPipeline := rfl
  compressing := (if_pos rfl).symm
  group := .inl rfl
  inFlight := .inl ⟨.inr rfl, rfl⟩

/-- The NCCL loop of the root adds a task to the group, and tells the others. -/
theorem Body.rootNccl (hsize : 2 ≤ cfg.localSize) (hd : d = cfg.root) {signal : CommSignal}
    (hcall : KeyState.callOf op = some signal) (hop : op = .reduce ∨ op = .broadcast) (m : Machine)
    (t : Task) : Body cfg d op t m
      (let m := m.addToGroup d t
       if 1 < cfg.localSize then m.broadcastSignal cfg .nccl ⟨d, signal, t.key⟩ else m) := by
  have hlt : 1 < cfg.localSize := by omega
  dsimp only
  rw [if_pos hlt]
  have hcomm : commOf signal = .nccl := by
    rcases hop with rfl | rfl
    · cases hcall
      rfl
    · cases hcall
      rfl
  refine
    { pipeline := rfl
      signalling := rfl
      log := rfl
      ncclPipeline := rfl
      compressing := ?_
      group := .inr ⟨hop, rfl⟩
      inFlight := .inr ⟨hd, signal, hcall, ?_⟩ }
  · rcases hop with rfl | rfl
    · rfl
    · rfl
  · rw [hcomm, hd]
    rfl

/-- The root tells the others that they may copy. -/
theorem Body.rootCopy (hsize : 2 ≤ cfg.localSize) (hd : d = cfg.root) (m : Machine) (t : Task) :
    Body cfg d .copyH2D t m
      (if 1 < cfg.localSize then m.broadcastSignal cfg .basic ⟨d, .doCopyH2D, t.key⟩ else m) := by
  have hlt : 1 < cfg.localSize := by omega
  rw [if_pos hlt]
  exact
    { pipeline := rfl
      signalling := rfl
      log := rfl
      ncclPipeline := rfl
      compressing := rfl
      group := .inl rfl
      inFlight := .inr ⟨hd, .doCopyH2D, rfl, by rw [hd]; rfl⟩ }

theorem runLoopOnce_follows (hsize : 2 ≤ cfg.localSize) (h : m.Sound cfg) (hd : d ≤ cfg.root)
    {ready : ℕ → Bool} (hs : runLoopOnce cfg m d ready now op = .ok m') : Follows cfg m m' := by
  unfold runLoopOnce at hs
  by_cases hroot : d = cfg.root
  · rw [if_pos hroot] at hs
    have hloop {op : QueueType} : d = cfg.root ∨ op ≠ .reduce ∧ op ≠ .broadcast := .inl hroot
    cases op with
    | reduce =>
        exact takeTask_follows hsize h hd hloop
          (fun m t => .rootNccl hsize hroot rfl (.inl rfl) m t) hs
    | broadcast =>
        exact takeTask_follows hsize h hd hloop
          (fun m t => .rootNccl hsize hroot rfl (.inr rfl) m t) hs
    | compress => exact takeTask_follows hsize h hd hloop (fun m t => .compress m t) hs
    | copyH2D => exact takeTask_follows hsize h hd hloop (fun m t => .rootCopy hsize hroot m t) hs
    | copyD2H | push | pull | decompress =>
        refine takeTask_follows hsize h hd hloop (fun m t => .nothing ?_ (.inr rfl) m t) hs
        decide
    | coordinateReduce | pcieReduce | coordinatePush | coordinateBroadcast => cases hs
  · rw [if_neg hroot] at hs
    cases op with
    | coordinateReduce | coordinatePush | coordinateBroadcast | copyD2H | copyH2D =>
        refine takeTask_follows hsize h hd (.inr ?_) (fun m t => .nothing ?_ (.inl hroot) m t) hs
        · decide
        · decide
    | reduce | pcieReduce | compress | push | pull | decompress | broadcast => cases hs

end Take

/-! ### A stage is finished

The task loses its first stage and goes to the queue of the next one, or is done.  What the
device signals depends on the stage that was finished.
-/

section Finish

variable {cfg : Config} {m m' : Machine} {d : ℕ} {s : Pipeline} {op : QueueType}
  {rest : List QueueType} {t : Task} {now : ℤ}

/-- What finishing a stage does to its device. -/
structure Finished (s s' : Pipeline) (op : QueueType) (rest : List QueueType) (t : Task) :
    Prop where
  one : s'.OneEach
  other : ∀ k, k ≠ t.key → s'.position k = s.position k
  before : s.position t.key = (op :: rest, true)
  after : s'.position t.key = (rest, false)
  tables : s'.tables = s.tables
  issued : s'.issued = s.issued
  taken : s'.taken = s.taken.erase t

theorem Sound.finished (h : m.Sound cfg)
    (hs : finishOrProceed (cfg.setup d) (m.pipeline d) t now = .ok s)
    (hlist : t.queueList = op :: rest) :
    t ∈ (m.pipeline d).taken ∧ Finished (m.pipeline d) s op rest t := by
  obtain ⟨htables, hissued, htaken⟩ := finishOrProceed_tables hs
  obtain ⟨ht, op', rest', p, hlist', _, hcases⟩ := finishOrProceed_cases hs
  rw [hlist] at hlist'
  obtain ⟨rfl, rfl⟩ := List.cons.inj hlist'
  refine ⟨ht, ?_⟩
  have hbefore := places_reportTask ht op p
  obtain ⟨hat, hnone⟩ := (h.one d).at hbefore rfl
  have hposition : (m.pipeline d).position t.key = (op :: rest, true) :=
    hat.trans (Prod.ext hlist rfl)
  rcases hcases with ⟨next, rest', q, rfl, hq, rfl⟩ | ⟨rfl, hpart⟩
  · obtain ⟨hone, hother, hself⟩ :=
      (h.one d).moved hbefore (places_setQueue hq) rfl rfl hnone
    exact ⟨hone, hother, hposition, hself, htables, hissued, htaken⟩
  · have hafter : s.places.Perm (reportTask (m.pipeline d) t op p).places := by
      obtain ⟨call, _, hcases⟩ := finishPart_spec hpart
      rcases hcases with ⟨_, rfl⟩ | ⟨_, rfl⟩
      · exact .refl _
      · exact .refl _
    obtain ⟨hone, hother, hself⟩ := (h.one d).gone hbefore hafter rfl
    exact ⟨hone, hother, hposition, hself, htables, hissued, htaken⟩

/-- A key is not being compressed while another stage of it is finished. -/
theorem Sound.not_compressing (h : m.Sound cfg) (ht : t ∈ (m.pipeline d).taken)
    (hlist : t.queueList = op :: rest) (hnot : t ∉ m.compressing) (hop : op = .compress) :
    (m.view cfg t.key).compressing = 0 := by
  have hplace := mem_places_of_taken ht
  have hhead : t.queueList.head? = some .compress := by
    rw [hlist, hop]
    rfl
  have hroot := (h.compress_tail hplace hhead).1
  apply List.countP_eq_zero.mpr
  intro u hu hkey
  have hutaken := (h.compressing u hu).1
  rw [← hroot] at hutaken
  have hkey : u.key = t.key := of_decide_eq_true hkey
  have hu' := mem_active (mem_places_of_taken hutaken) rfl
  have ht' := mem_active hplace rfl
  rw [hkey] at hu'
  have heq := eq_of_mem_of_length_le_one (h.one d t.key) hu' ht'
  exact hnot ((Prod.mk.inj heq).2 ▸ hu)

/-- A loop has finished a stage, and signals what is to be signalled. -/
structure FinishStep (cfg : Config) (m m' : Machine) (d : ℕ) (op : QueueType) (t : Task) :
    Prop where
  inFlight : m'.inFlight = m.inFlight
  compressing : m'.compressing = m.compressing
  group : m'.group = m.group
  ncclPipeline : ∀ d u, u ∈ (m'.ncclPipeline d).flatten → u ∈ (m.ncclPipeline d).flatten
  log : m'.log = .finished d op t.key :: m.log
  signalling : coordinateSignal op = none ∧ m'.signalling = m.signalling ∨
    ∃ comm signal, coordinateSignal op = some (comm, signal) ∧
      m'.signalling =
        Function.update m.signalling d (m.signalling d ++ [(comm, ⟨d, signal, t.key⟩)])

theorem FinishStep.sending (h : FinishStep cfg m m' d op t) (k i : ℕ) (signal : CommSignal) :
    (m'.view cfg k).sending i signal = (m.view cfg k).sending i signal +
      if (i = d ∧ KeyState.readyOf op = some signal) ∧ t.key = k then 1 else 0 := by
  unfold view KeyState.readyOf
  dsimp only
  rw [h.inFlight]
  rcases h.signalling with ⟨hnone, hsame⟩ | ⟨comm, signal', hsome, hadd⟩
  · rw [hsame, hnone]
    simp
  · rw [hadd, hsome, Function.update_apply]
    by_cases hi : i = d
    · subst hi
      simp
      omega
    · rw [if_neg hi, if_neg fun h => hi h.1.1]
      rfl

theorem finish_follows (h : m.Sound cfg) (hd : d ≤ cfg.root) (hlist : t.queueList = op :: rest)
    (hs : finishOrProceed (cfg.setup d) (m.pipeline d) t now = .ok s) (hnot : t ∉ m.compressing)
    (hpipeline : m'.pipeline = Function.update m.pipeline d s)
    (hfinish : FinishStep cfg m m' d op t) :
    Follows cfg m m' := by
  obtain ⟨ht, hfinished⟩ := h.finished hs hlist
  have hstep : DeviceStep cfg m m' d s :=
    { pipeline := hpipeline
      reachable := .next (h.reachable d) (show (m.pipeline d).step (cfg.setup d)
        (.finishOrProceed t now) = .ok s from hs)
      issued := by
        rw [hfinished.issued]
        exact h.stages d
      one := hfinished.one }
  constructor
  · refine h.of_step hstep ?_ ?_ ?_ ?_
    · intro u hu
      rw [hfinish.compressing] at hu
      have hne : u ≠ t := fun heq => hnot (heq ▸ hu)
      rw [hfinished.taken]
      exact ⟨hu, (List.mem_erase_of_ne hne).mpr⟩
    · intro d' u hu
      rw [hfinish.group] at hu
      rcases hu with hu | hu
      · exact h.grouped d' u (.inl hu)
      · exact h.grouped d' u (.inr (hfinish.ncclPipeline d' u hu))
    · intro d' x hx
      rcases hfinish.signalling with ⟨_, hsame⟩ | ⟨comm, signal, hsome, hadd⟩
      · rw [hsame] at hx
        exact h.signalling d' x hx
      · rw [hadd, Function.update_apply] at hx
        split at hx
        · rename_i hd'
          rcases List.mem_append.mp hx with hx | hx
          · exact h.signalling d x hx
          · rw [List.mem_singleton.mp hx]
            cases op <;> cases hsome <;> exact ⟨_, rfl⟩
        · exact h.signalling d' x hx
    · rw [hfinish.inFlight]
      exact fun _ _ _ _ hmsg => hmsg
  · intro k
    have hcoming : (m'.view cfg k).coming = (m.view cfg k).coming := by
      unfold view
      dsimp only
      rw [hfinish.inFlight]
    have hcompressing : (m'.view cfg k).compressing = (m.view cfg k).compressing := by
      unfold view
      dsimp only
      rw [hfinish.compressing]
    have htable : (m'.view cfg k).table = (m.view cfg k).table := by
      apply hstep.view_table_same
      intro name
      rw [hfinished.tables]
    have hlog := view_log_cons cfg _ hfinish.log k
    by_cases hk : t.key = k
    · right
      subst hk
      have heq : m'.view cfg t.key = { m.view cfg t.key with
          position := Function.update (m.view cfg t.key).position d (rest, false)
          sending := fun i signal =>
            if i = d ∧ KeyState.readyOf op = some signal then
              (m.view cfg t.key).sending i signal + 1
            else (m.view cfg t.key).sending i signal
          log := .finished d op t.key :: (m.view cfg t.key).log } := by
        refine KeyState.ext ?_ ?_ hcoming hcompressing htable ?_
        · rw [hstep.view_position, hfinished.after]
        · funext i signal
          rw [hfinish.sending]
          simp only [and_true]
          split
          · rfl
          · rfl
        · rw [hlog]
          exact if_pos rfl
      rw [heq]
      exact .finish d op rest hd hfinished.before (h.not_compressing ht hlist hnot)
    · left
      refine KeyState.ext ?_ ?_ hcoming hcompressing htable ?_
      · exact hstep.view_position_same (hfinished.other k (Ne.symm hk))
      · funext i signal
        rw [hfinish.sending, if_neg fun h => hk h.2, Nat.add_zero]
      · rw [hlog]
        exact if_neg hk

theorem runFinish_follows (h : m.Sound cfg) (hd : d ≤ cfg.root)
    (hs : runFinish cfg m d now t = .ok m') : Follows cfg m m' := by
  unfold runFinish at hs
  cases hlist : t.queueList with
  | nil =>
      rw [hlist] at hs
      cases hs
  | cons op rest =>
      rw [hlist] at hs
      dsimp only at hs
      split at hs
      · cases hs
      · rename_i hnone
        obtain ⟨m₁, hm₁, hs⟩ := bind_eq_ok hs
        obtain ⟨s, hs₁, hm₁⟩ := bind_eq_ok hm₁
        cases hm₁
        have hnot : t ∉ m.compressing := fun hin => hnone (.inr (.inr hin))
        have hm' : coordinate ((m.setPipeline d s).record (.finished d op t.key)) d op t = m' :=
          Except.ok.inj hs
        cases hsignal : coordinateSignal op with
        | none =>
            unfold coordinate at hm'
            rw [hsignal] at hm'
            subst hm'
            exact finish_follows h hd hlist hs₁ hnot rfl
              ⟨rfl, rfl, rfl, fun _ _ hu => hu, rfl, .inl ⟨hsignal, rfl⟩⟩
        | some told =>
            unfold coordinate at hm'
            rw [hsignal] at hm'
            subst hm'
            exact finish_follows h hd hlist hs₁ hnot rfl
              ⟨rfl, rfl, rfl, fun _ _ hu => hu, rfl, .inr ⟨told.1, told.2, hsignal, rfl⟩⟩

theorem runSyncNcclOnce_follows (h : m.Sound cfg) (hd : d ≤ cfg.root)
    (hs : runSyncNcclOnce cfg m d now = .ok m') : Follows cfg m m' := by
  unfold runSyncNcclOnce at hs
  split at hs
  · cases hs
    exact ⟨h, fun k => .inl rfl⟩
  · rename_i groups hgroups
    cases hs
    refine ⟨{ h with grouped := ?_ }, fun k => .inl rfl⟩
    intro d' u hu
    rcases hu with hu | hu
    · exact h.grouped d' u (.inl hu)
    · refine h.grouped d' u (.inr ?_)
      dsimp only at hu
      rw [Function.update_apply] at hu
      split at hu
      · rename_i hd'
        rw [hd', hgroups]
        exact hu
      · exact hu
  · rename_i t ts groups hgroups
    have hgrouped := h.grouped d t (.inr (by rw [hgroups]; simp))
    cases hlist : t.queueList with
    | nil =>
        rw [hlist] at hs
        cases hs
    | cons op rest =>
        rw [hlist] at hs hgrouped
        obtain ⟨m₁, hm₁, hs⟩ := bind_eq_ok hs
        obtain ⟨s, hs₁, hm₁⟩ := bind_eq_ok hm₁
        cases hm₁
        cases hs
        have hop : op = .reduce ∨ op = .broadcast := by
          rcases hgrouped with hop | hop
          · exact .inl (Option.some.inj hop)
          · exact .inr (Option.some.inj hop)
        have hnot : t ∉ m.compressing := by
          intro hin
          have hhead := (h.compressing t hin).2
          rw [hlist] at hhead
          rcases hop with rfl | rfl
          · cases hhead
          · cases hhead
        refine finish_follows h hd hlist hs₁ hnot rfl ⟨rfl, rfl, rfl, ?_, rfl, .inl ⟨?_, rfl⟩⟩
        · intro d' u hu
          dsimp only at hu
          rw [Function.update_apply] at hu
          split at hu
          · rename_i hd'
            rw [hd', hgroups]
            exact List.mem_cons_of_mem _ hu
          · exact hu
        · rcases hop with rfl | rfl
          · rfl
          · rfl

end Finish

/-! ### A tensor comes in

The stages of a task are those `EnqueueTensor` was asked for, and COMPRESS is put in only for a
tensor with a compressor, at the root.
-/

section Enqueue

variable {cfg : Config} {m m' : Machine} {d : ℕ} {s : Pipeline} {now : ℤ}

/-- A step of a device that no key sees. -/
theorem quiet_follows (h : m.Sound cfg) {a : Worker.Act}
    (hs : (m.pipeline d).step (cfg.setup d) a = .ok s)
    (hissued : ∀ issue ∈ s.issued, cfg.AsksFor d issue.stages)
    (htables : s.tables = (m.pipeline d).tables) (htaken : s.taken = (m.pipeline d).taken)
    (hactive : ∀ k, (active k s.places).Perm (active k (m.pipeline d).places)) :
    Follows cfg m (m.setPipeline d s) := by
  obtain ⟨hone, hposition⟩ := (h.one d).same hactive
  have hstep : DeviceStep cfg m (m.setPipeline d s) d s :=
    ⟨rfl, .next (h.reachable d) hs, hissued, hone⟩
  constructor
  · refine h.of_step hstep ?_ h.grouped h.signalling fun _ _ _ _ hmsg => hmsg
    intro u hu
    rw [htaken]
    exact ⟨hu, id⟩
  · intro k
    refine .inl (KeyState.ext (hstep.view_position_same (hposition k)) rfl rfl rfl ?_ rfl)
    apply hstep.view_table_same
    intro name
    rw [htables]

/-- The stages of a tensor are those of its device, with COMPRESS only where it has a compressor. -/
theorem asksFor_of_stagesOf {args : EnqueueArgs} {stages : List QueueType}
    (hs : stagesOf (cfg.setup d) { args with queueList := cfg.queueList d } = .ok stages) :
    cfg.AsksFor d stages := by
  unfold stagesOf at hs
  have hrole : (cfg.setup d).role = cfg.role d := rfl
  rw [hrole] at hs
  by_cases hd : d = cfg.root
  · have hlist : cfg.queueList d = rootStages := by
      unfold Config.queueList Config.role
      rw [decide_eq_true hd]
      rfl
    dsimp only at hs
    rw [hlist] at hs
    split at hs
    · rename_i hcompressors
      have hcompress : insertCompress rootStages = .ok compressedStages := rfl
      rw [hcompress] at hs
      cases hs
      exact .inr ⟨hd, rfl, args.context, hcompressors.2⟩
    · cases hs
      refine .inl ?_
      rw [stagesFor, if_pos hd]
  · have hlist : cfg.queueList d = peerStages := by
      unfold Config.queueList Config.role
      rw [decide_eq_false hd]
      rfl
    dsimp only at hs
    rw [hlist] at hs
    have hno : ¬((cfg.role d).isRootDevice = true ∧
        ((cfg.setup d).context args.context).compressors ≠ 0) := by
      unfold Config.role
      rw [decide_eq_false hd]
      exact fun h => Bool.false_ne_true h.1
    rw [if_neg hno] at hs
    cases hs
    refine .inl ?_
    rw [stagesFor, if_neg hd]

theorem enqueueTensor_follows (h : m.Sound cfg) {args : EnqueueArgs}
    (hs : stepDevice cfg m d (.enqueueTensor args now) = .ok m') : Follows cfg m m' := by
  obtain ⟨s, hrun, rfl⟩ := map_eq_ok hs
  obtain ⟨htables, htaken, ⟨stages, parts, hstages, hissued⟩, hactive⟩ := enqueueTensor_active hrun
  refine quiet_follows h hrun ?_ htables htaken hactive
  intro issue hissue
  rw [hissued] at hissue
  rcases List.mem_append.mp hissue with hissue | hissue
  · exact h.stages d issue hissue
  · rw [List.mem_singleton.mp hissue]
    exact asksFor_of_stagesOf hstages

theorem complete_follows (h : m.Sound cfg) {i : ℕ}
    (hs : stepDevice cfg m d (.complete i now) = .ok m') : Follows cfg m m' := by
  obtain ⟨s, hrun, rfl⟩ := map_eq_ok hs
  obtain ⟨htables, hissued, htaken, hplaces⟩ := complete_tables hrun
  refine quiet_follows h hrun ?_ htables htaken ?_
  · rw [hissued]
    exact h.stages d
  · intro k
    rw [hplaces]

/-- A device adds a task only when there is none of its key in its queues or with its loops. -/
def OncePerKey (m : Machine) : Act → Prop
  | .device d (.addNext call) =>
    match (m.pipeline d).adding.getD call [] with
    | [] => True
    | t :: _ => active t.key (m.pipeline d).places = []
  | _ => True

/-- What adding a task to the queue of its first stage does to its device. -/
structure Added (s s' : Pipeline) (t : Task) : Prop where
  one : s'.OneEach
  other : ∀ k, k ≠ t.key → s'.position k = s.position k
  before : (s.position t.key).1 = []
  after : s'.position t.key = (t.queueList, false)
  tables : s'.tables = s.tables
  issued : s'.issued = s.issued
  taken : s'.taken = s.taken

theorem Sound.added (h : m.Sound cfg) {call : ℕ} {t : Task} {rest : List Task}
    (hadding : (m.pipeline d).adding.getD call [] = t :: rest)
    (hidle : active t.key (m.pipeline d).places = [])
    (hs : (m.pipeline d).step (cfg.setup d) (.addNext call) = .ok s) :
    AllowedStages cfg.root d t.queueList ∧ Added (m.pipeline d) s t := by
  obtain ⟨t', rest', op, q, hadding', hstage, hq, hcase⟩ := addNext_cases hs
  rw [hadding] at hadding'
  obtain ⟨rfl, rfl⟩ := List.cons.inj hadding'
  obtain ⟨R, hbefore, hafter⟩ := places_addNext hadding hq
  rw [← hcase] at hafter
  have hnone : active t.key R = [] := by
    have hperm : (active t.key (m.pipeline d).places).Perm
        (active t.key ((.adding call, t) :: R)) := hbefore.filter _
    rw [hidle, active_cons_ne (.inl rfl)] at hperm
    exact hperm.symm.eq_nil
  obtain ⟨hone, hother, hself⟩ := (h.one d).moved hbefore hafter rfl rfl hnone
  obtain ⟨call', issue, hstands⟩ :=
    (h.reachable d).inv.stands _ (hbefore.mem_iff.mpr List.mem_cons_self)
  have hstages : t.queueList = issue.stages := by
    have hall := hstands.stages
    rw [(hstands.adding call rfl).2] at hall
    exact hall
  have hbefore : ((m.pipeline d).position t.key).1 = [] := by
    unfold Pipeline.position
    rw [hidle]
    rfl
  constructor
  · rw [hstages]
    exact (h.stages d issue (List.mem_of_getElem? hstands.issued)).allowed
  · refine ⟨hone, hother, hbefore, hself, ?_, ?_, ?_⟩
    · rw [hcase]
      rfl
    · rw [hcase]
      rfl
    · rw [hcase]
      rfl

theorem addNext_follows (h : m.Sound cfg) (hd : d ≤ cfg.root) {call : ℕ}
    (honce : m.OncePerKey (.device d (.addNext call)))
    (hs : runAddNext cfg m d call = .ok m') : Follows cfg m m' := by
  unfold runAddNext at hs
  cases hadding : (m.pipeline d).adding.getD call [] with
  | nil =>
      rw [hadding] at hs
      cases hs
  | cons t rest =>
      rw [hadding] at hs
      obtain ⟨m₁, hm₁, rfl⟩ := map_eq_ok hs
      obtain ⟨s, hrun, rfl⟩ := map_eq_ok hm₁
      have hidle : active t.key (m.pipeline d).places = [] := by
        simp only [OncePerKey, hadding] at honce
        exact honce
      obtain ⟨hallowed, hadded⟩ := h.added hadding hidle hrun
      have hstep : DeviceStep cfg m ((m.setPipeline d s).record (.begun d t.key)) d s :=
        { pipeline := rfl
          reachable := .next (h.reachable d) hrun
          issued := by
            rw [hadded.issued]
            exact h.stages d
          one := hadded.one }
      constructor
      · refine h.of_step hstep ?_ h.grouped h.signalling fun _ _ _ _ hmsg => hmsg
        intro u hu
        rw [hadded.taken]
        exact ⟨hu, id⟩
      · intro k
        have htable := hstep.view_table_same (k := k) fun name => by rw [hadded.tables]
        have hlog := view_log_cons cfg (.begun d t.key)
          (show ((m.setPipeline d s).record (.begun d t.key)).log =
            .begun d t.key :: m.log from rfl) k
        by_cases hk : t.key = k
        · right
          subst hk
          have heq : ((m.setPipeline d s).record (.begun d t.key)).view cfg t.key =
              { m.view cfg t.key with
                position := Function.update (m.view cfg t.key).position d (t.queueList, false)
                log := .begun d t.key :: (m.view cfg t.key).log } := by
            refine KeyState.ext ?_ rfl rfl rfl htable ?_
            · rw [hstep.view_position, hadded.after]
            · rw [hlog]
              exact if_pos rfl
          rw [heq]
          exact .begin d t.queueList hd hallowed hadded.before
        · left
          refine KeyState.ext ?_ rfl rfl rfl htable ?_
          · exact hstep.view_position_same (hadded.other k (Ne.symm hk))
          · rw [hlog]
            exact if_neg hk

end Enqueue

end Machine

end DeepInc.Worker
