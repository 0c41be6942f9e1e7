/-
What the devices of a machine do with the signals they send each other.

The root counts what the others announce, and they count that they may copy and make the calls
they are told of.  These are the steps in which no task is taken by its count or handed back;
with those of `Loops.lean` they are all steps of a machine.

A signal that is counted is one less on its way and one more in a table, and for its key that is
a step in which a signal is heard.  A call is made by a device when it is told so: it takes the
task from its queue, wherever it is, and puts it into its group.  The end of a group is about no
key, and moves tasks from the group to the pipeline of the device.

Other steps change no place of a task: a signal goes from the loop that has finished a stage to
the socket, the root ends its group, and the thread pool restores a count when it is done with a
compression.
-/
import DeepInc.Proofs.Worker.Loops

namespace DeepInc.Worker

open Transition Outcome

namespace Machine

/-! ### A signal is counted

The check in `AddReadyCount` passes because the count is short of what the table waits for.
That is a hypothesis here, and is taken from the invariant of the key in `Machine.lean`.
-/

/-- What counting a signal does to its device. -/
theorem addReadyCount_cases {setup : Setup} {s s' : Pipeline} {name : TableName} {key : ℕ}
    (h : s.step setup (.addReadyCount name key) = .ok s') :
    s'.places = s.places ∧ s'.issued = s.issued ∧ s'.taken = s.taken ∧
      ∀ name' k, (s'.tables name').readyTable k =
        if name' = name ∧ key = k then (s.tables name').readyTable k + 1
        else (s.tables name').readyTable k := by
  obtain ⟨rt, hrt, heq⟩ := map_eq_ok h
  have hrt := orStop_eq_ok hrt
  unfold ReadyTable.addReadyCount at hrt
  obtain ⟨_, _, hrt⟩ := bind_eq_ok hrt
  subst heq
  refine ⟨rfl, rfl, rfl, ?_⟩
  intro name' k
  change (Function.update s.tables name rt name').readyTable k = _
  rw [Function.update_apply]
  by_cases hname : name' = name
  · rw [if_pos hname, ← Except.ok.inj hrt, hname]
    change Function.update (s.tables name).readyTable key _ k = _
    rw [Function.update_apply]
    by_cases hk : k = key
    · rw [if_pos hk, if_pos ⟨rfl, hk.symm⟩, hk]
    · rw [if_neg hk, if_neg fun h => hk h.2.symm]
  · rw [if_neg hname, if_neg fun h => hname h.1]

section Hear

variable {cfg : Config} {m m' : Machine} {d : ℕ} {comm : Comm}

/-- A device has counted a signal in one of its tables. -/
theorem Sound.counted (h : m.Sound cfg) (m' : Machine) {d : ℕ} {s : Pipeline} {name : TableName}
    {key : ℕ} (hs : (m.pipeline d).step (cfg.setup d) (.addReadyCount name key) = .ok s)
    (hpipeline : m'.pipeline = Function.update m.pipeline d s)
    (hcompressing : m'.compressing = m.compressing) :
    DeviceStep cfg m m' d s ∧ (∀ k, s.position k = (m.pipeline d).position k) ∧
      ∀ u ∈ m'.compressing, u ∈ m.compressing ∧ (u ∈ (m.pipeline d).taken → u ∈ s.taken) := by
  obtain ⟨hplaces, hissued, htaken, _⟩ := addReadyCount_cases hs
  obtain ⟨hone, hposition⟩ := (h.one d).same fun k => by rw [hplaces]
  have hstep : DeviceStep cfg m m' d s :=
    ⟨hpipeline, .next (h.reachable d) hs, by rw [hissued]; exact h.stages d, hone⟩
  refine ⟨hstep, hposition, ?_⟩
  intro u hu
  rw [hcompressing] at hu
  rw [htaken]
  exact ⟨hu, id⟩

/-- The tables, of the key that is counted and of every other key. -/
theorem view_table_counted {s : Pipeline} {name : TableName} {key : ℕ}
    (hstep : DeviceStep cfg m m' d s)
    (hs : (m.pipeline d).step (cfg.setup d) (.addReadyCount name key) = .ok s) :
    (m'.view cfg key).table = fun d' name' =>
      if d' = d ∧ name' = name then (m.view cfg key).table d' name' + 1
      else (m.view cfg key).table d' name' := by
  obtain ⟨_, _, _, htables⟩ := addReadyCount_cases hs
  funext d' name'
  rw [hstep.view_table, htables]
  by_cases hd' : d' = d
  · subst hd'
    simp only [true_and, and_true, if_true]
    rfl
  · simp only [hd', false_and, if_false]

theorem view_table_counted_ne {s : Pipeline} {name : TableName} {key k : ℕ}
    (hstep : DeviceStep cfg m m' d s)
    (hs : (m.pipeline d).step (cfg.setup d) (.addReadyCount name key) = .ok s) (hk : key ≠ k) :
    (m'.view cfg k).table = (m.view cfg k).table := by
  obtain ⟨_, _, _, htables⟩ := addReadyCount_cases hs
  exact hstep.view_table_same fun name' => by rw [htables, if_neg fun h => hk h.2]

theorem startListenThread_follows (h : m.Sound cfg) (hd : d < cfg.root)
    (hs : startListenThread cfg m d comm = .ok m') : Follows cfg m m' := by
  unfold startListenThread at hs
  split at hs
  · cases hs
  · rename_i msg msgs hmsgs
    split at hs
    · cases hs
    · rename_i name hname
      obtain ⟨s, hrun, hs⟩ := bind_eq_ok hs
      have hm' : ((m.setInFlight comm d cfg.root msgs).setPipeline cfg.root s).record
          (.heard msg.signal d msg.key) = m' := Except.ok.inj hs
      subst hm'
      obtain ⟨hstep, hposition, hcompress⟩ := h.counted
        (((m.setInFlight comm d cfg.root msgs).setPipeline cfg.root s).record
          (.heard msg.signal d msg.key)) hrun rfl rfl
      have hne : d ≠ cfg.root := Nat.ne_of_lt hd
      constructor
      · exact h.of_step hstep hcompress h.grouped h.signalling (mem_of_receive hmsgs)
      · intro k
        have hsending := sending_receive cfg m k hmsgs
        have hcoming := coming_receive_root cfg m k comm hne msgs
        by_cases hk : msg.key = k
        · right
          subst hk
          have heq : (((m.setInFlight comm d cfg.root msgs).setPipeline cfg.root s).record
              (.heard msg.signal d msg.key)).view cfg msg.key = { m.view cfg msg.key with
                sending := fun i' signal' => if i' = d ∧ signal' = msg.signal then
                    (m.view cfg msg.key).sending i' signal' - 1
                  else (m.view cfg msg.key).sending i' signal'
                table := fun d name' => if d = cfg.root ∧ name' = name then
                    (m.view cfg msg.key).table d name' + 1
                  else (m.view cfg msg.key).table d name'
                log := .heard msg.signal d msg.key :: (m.view cfg msg.key).log } := by
            refine KeyState.ext ?_ ?_ hcoming rfl (view_table_counted hstep hrun) ?_
            · exact hstep.view_position_same (hposition _)
            · funext i signal
              dsimp only
              rw [hsending]
              simp only [and_true]
              split
              · rfl
              · rfl
            · rw [view_log_cons cfg (.heard msg.signal d msg.key) rfl]
              exact if_pos rfl
          rw [heq]
          refine .hear d msg.signal name hd hname ?_
          have hpos := hsending d msg.signal
          rw [if_pos ⟨⟨rfl, rfl⟩, rfl⟩] at hpos
          omega
        · left
          refine KeyState.ext ?_ ?_ hcoming rfl (view_table_counted_ne hstep hrun hk) ?_
          · exact hstep.view_position_same (hposition k)
          · funext i signal
            rw [hsending, if_neg fun h => hk h.2]
            rfl
          · rw [view_log_cons cfg (.heard msg.signal d msg.key) rfl]
            exact if_neg hk

theorem runNonRootCopyListenLoopOnce_follows (h : m.Sound cfg) (hd : d < cfg.root)
    (hs : runNonRootCopyListenLoopOnce cfg m d = .ok m') : Follows cfg m m' := by
  unfold runNonRootCopyListenLoopOnce at hs
  split at hs
  · cases hs
  · rename_i msg msgs hmsgs
    obtain ⟨_, _, hs⟩ := bind_eq_ok hs
    obtain ⟨_, hcheck, hs⟩ := bind_eq_ok hs
    obtain ⟨s, hrun, hs⟩ := bind_eq_ok hs
    have hsignal : msg.signal = .doCopyH2D := of_decide_eq_true (check_eq_ok (orStop_eq_ok hcheck))
    have hm' : ((m.setInFlight .basic cfg.root d msgs).setPipeline d s).record
        (.heard .doCopyH2D d msg.key) = m' := Except.ok.inj hs
    subst hm'
    obtain ⟨hstep, hposition, hcompress⟩ := h.counted
      (((m.setInFlight .basic cfg.root d msgs).setPipeline d s).record
        (.heard .doCopyH2D d msg.key)) hrun rfl rfl
    have hne : d ≠ cfg.root := Nat.ne_of_lt hd
    constructor
    · exact h.of_step hstep hcompress h.grouped h.signalling (mem_of_receive hmsgs)
    · intro k
      have hsending := sending_receive_peer cfg m k .basic hne msgs
      by_cases hk : msg.key = k
      · right
        subst hk
        obtain ⟨hpos, hcoming⟩ := coming_receive_key cfg m hmsgs (by rw [hsignal]; decide)
        rw [hsignal] at hpos hcoming
        have heq : (((m.setInFlight .basic cfg.root d msgs).setPipeline d s).record
            (.heard .doCopyH2D d msg.key)).view cfg msg.key = { m.view cfg msg.key with
              coming := fun i' signal => if i' = d ∧ signal = .doCopyH2D then
                  (m.view cfg msg.key).coming i' signal - 1
                else (m.view cfg msg.key).coming i' signal
              table := fun d' name => if d' = d ∧ name = .copy then
                  (m.view cfg msg.key).table d' name + 1
                else (m.view cfg msg.key).table d' name
              log := .heard .doCopyH2D d msg.key :: (m.view cfg msg.key).log } := by
          refine KeyState.ext ?_ hsending hcoming rfl (view_table_counted hstep hrun) ?_
          · exact hstep.view_position_same (hposition _)
          · rw [view_log_cons cfg (.heard .doCopyH2D d msg.key) rfl]
            exact if_pos rfl
        rw [heq]
        exact .copy d hd hpos
      · left
        have hcoming := coming_receive_ne cfg m hmsgs hk
        refine KeyState.ext ?_ hsending hcoming rfl (view_table_counted_ne hstep hrun hk) ?_
        · exact hstep.view_position_same (hposition k)
        · rw [view_log_cons cfg (.heard .doCopyH2D d msg.key) rfl]
          exact if_neg hk

end Hear

/-! ### A call is made -/

section Call

variable {cfg : Config} {m m' : Machine} {d : ℕ} {ready : ℕ → Bool} {now : ℤ} {msg : CommMsg}
  {msgs : List CommMsg}

/-- A group that is ended goes from the loop to the pipeline. -/
theorem mem_enqueueGroup {d' : ℕ} {u : Task}
    (hu : u ∈ (m.enqueueGroup d).group d' ∨ u ∈ ((m.enqueueGroup d).ncclPipeline d').flatten) :
    u ∈ m.group d' ∨ u ∈ (m.ncclPipeline d').flatten := by
  unfold enqueueGroup at hu
  dsimp only at hu
  rw [Function.update_apply, Function.update_apply] at hu
  by_cases hd' : d' = d
  · rw [if_pos hd', if_pos hd', List.flatten_append, List.flatten_singleton, List.mem_append] at hu
    rw [hd']
    rcases hu with hu | hu | hu
    · cases hu
    · exact .inr hu
    · exact .inl hu
  · rw [if_neg hd', if_neg hd'] at hu
    exact hu

/-- The end of a group is about no key. -/
theorem group_follows (h : m.Sound cfg) (hne : d ≠ cfg.root)
    (hmsgs : m.inFlight .nccl cfg.root d = msg :: msgs) (hgroup : msg.signal = .doGroup) :
    Follows cfg m ((m.setInFlight .nccl cfg.root d msgs).enqueueGroup d) := by
  have hin := mem_of_receive hmsgs
  constructor
  · refine { h with grouped := ?_, toRoot := ?_, toCopy := ?_, toCall := ?_ }
    · intro d' u hu
      exact h.grouped d' u (mem_enqueueGroup hu)
    · intro comm' d' hd' msg' hmsg'
      exact h.toRoot comm' d' hd' msg' (hin _ _ _ msg' hmsg')
    · intro d' hd' msg' hmsg'
      exact h.toCopy d' hd' msg' (hin _ _ _ msg' hmsg')
    · intro d' hd' msg' hmsg'
      exact h.toCall d' hd' msg' (hin _ _ _ msg' hmsg')
  · intro k
    refine .inl (KeyState.ext rfl (sending_receive_peer cfg m k .nccl hne msgs) ?_ rfl rfl rfl)
    funext i signal
    have hcoming := coming_receive cfg m k hmsgs i signal
    have hno : ¬((i = d ∧ signal = msg.signal) ∧ signal ≠ .doGroup ∧ msg.key = k) :=
      fun h => h.2.1 (h.1.2.trans hgroup)
    rw [if_neg hno] at hcoming
    exact hcoming.symm

/-- A device makes the call it is told of, and adds the task to its group. -/
theorem call_follows (h : m.Sound cfg) (hd : d < cfg.root)
    (hmsgs : m.inFlight .nccl cfg.root d = msg :: msgs) (hgroup : msg.signal ≠ .doGroup)
    {op : QueueType} (hop : stageOfCall msg.signal = some op) {s : Pipeline} {t : Task}
    (hkey : t.key = msg.key) (hhead : t.queueList.head? = some op)
    (htaken : Taken (m.pipeline d) s op t (m.pipeline d).tables)
    (hpipeline : m'.pipeline = Function.update m.pipeline d s)
    (hreachable : Pipeline.Reachable (cfg.setup d) s)
    (hgrouped : m'.group =
      Function.update m.group d (m.group d ++ [{ t with readyEvent := none }]))
    (hlog : m'.log = .got d op msg.key :: m.log)
    (hrest : m'.ncclPipeline = m.ncclPipeline ∧ m'.signalling = m.signalling ∧
      m'.compressing = m.compressing ∧
      m'.inFlight = (m.setInFlight .nccl cfg.root d msgs).inFlight) :
    Follows cfg m m' := by
  obtain ⟨hnccl, hsignalling, hcompressing, hinFlight⟩ := hrest
  have hne : d ≠ cfg.root := Nat.ne_of_lt hd
  have hstep : DeviceStep cfg m m' d s :=
    { pipeline := hpipeline
      reachable := hreachable
      issued := by
        rw [htaken.issued]
        exact h.stages d
      one := htaken.one }
  constructor
  · refine h.of_step hstep ?_ ?_ ?_ ?_
    · intro u hu
      rw [hcompressing] at hu
      rw [htaken.taken]
      exact ⟨hu, List.mem_cons_of_mem _⟩
    · exact h.grouped_add hgrouped hhead (KeyState.Inv.stageOfCall_eq hop) hnccl
    · rw [hsignalling]
      exact h.signalling
    · rw [hinFlight]
      exact mem_of_receive hmsgs
  · intro k
    have hsending : (m'.view cfg k).sending = (m.view cfg k).sending := by
      rw [← sending_receive_peer cfg m k .nccl hne msgs]
      unfold view
      dsimp only
      rw [hsignalling, hinFlight]
      rfl
    have hreceived : (m'.view cfg k).coming =
        ((m.setInFlight .nccl cfg.root d msgs).view cfg k).coming := by
      unfold view
      dsimp only
      rw [hinFlight]
    have hcount : (m'.view cfg k).compressing = (m.view cfg k).compressing := by
      unfold view
      dsimp only
      rw [hcompressing]
    have htable := hstep.view_table_same (k := k) fun name => by rw [htaken.tables]
    have hlog := view_log_cons cfg _ hlog k
    obtain ⟨rest, _, hbefore, hafter⟩ := htaken.position
    rw [hkey] at hbefore hafter
    by_cases hk : msg.key = k
    · right
      subst hk
      obtain ⟨hpos, hcoming⟩ := coming_receive_key cfg m hmsgs hgroup
      have heq : m'.view cfg msg.key = { m.view cfg msg.key with
          position := Function.update (m.view cfg msg.key).position d (op :: rest, true)
          coming := fun i' signal' => if i' = d ∧ signal' = msg.signal then
              (m.view cfg msg.key).coming i' signal' - 1
            else (m.view cfg msg.key).coming i' signal'
          log := .got d op msg.key :: (m.view cfg msg.key).log } := by
        refine KeyState.ext ?_ hsending (hreceived.trans hcoming) hcount htable ?_
        · rw [hstep.view_position, hafter]
        · rw [hlog]
          exact if_pos rfl
      rw [heq]
      exact .call d op msg.signal rest hd hop hpos hbefore
    · left
      refine KeyState.ext ?_ hsending (hreceived.trans (coming_receive_ne cfg m hmsgs hk)) hcount
        htable ?_
      · exact hstep.view_position_same (htaken.other k fun h => hk (hkey.symm.trans h.symm))
      · rw [hlog]
        exact if_neg hk

theorem runNonRootNcclLoopOnce_follows (h : m.Sound cfg) (hd : d < cfg.root)
    (hs : runNonRootNcclLoopOnce cfg m d ready now = .ok m') : Follows cfg m m' := by
  unfold runNonRootNcclLoopOnce at hs
  split at hs
  · cases hs
  · rename_i msg msgs hmsgs
    obtain ⟨_, _, hs⟩ := bind_eq_ok hs
    dsimp only at hs
    by_cases hgroup : msg.signal = .doGroup
    · rw [if_pos hgroup] at hs
      cases hs
      exact group_follows h (Nat.ne_of_lt hd) hmsgs hgroup
    · rw [if_neg hgroup] at hs
      split at hs
      · cases hs
      · rename_i op hop
        obtain ⟨found, hfound, hs⟩ := bind_eq_ok hs
        cases found with
        | none => cases hs
        | some found =>
            obtain ⟨s, htake, hs⟩ := bind_eq_ok hs
            have hfound : ((m.pipeline d).queues op).getTaskOf ready msg.key = .ok (some found) :=
              orStop_eq_ok hfound
            obtain ⟨t, ht', hperm, hkey, _⟩ := ScheduledQueue.getTaskOf_spec hfound
            have hrun : (m.pipeline d).step (cfg.setup d) (.getTaskOf op msg.key ready now) =
                .ok s := by
              change runGetTaskOf (m.pipeline d) op msg.key ready now = .ok s
              unfold runGetTaskOf
              rw [hfound]
              exact htake
            have htake : take { m.pipeline d with tables := (m.pipeline d).tables } op found.2
                found.1 now = .ok s := htake
            rw [ht'] at htake
            have hin : t ∈ ((m.pipeline d).queues op).sq := hperm.mem_iff.mpr List.mem_cons_self
            have hm' : (((m.setInFlight .nccl cfg.root d msgs).setPipeline d s).addToGroup d
                found.1).record (.got d op found.1.key) = m' := Except.ok.inj hs
            have hkey' : found.1.key = msg.key := by rw [ht']; exact hkey
            rw [hkey', ht'] at hm'
            subst hm'
            exact call_follows h hd hmsgs hgroup hop hkey (h.head_of_queue hin) (h.taken hperm htake)
              rfl (.next (h.reachable d) hrun) rfl rfl ⟨rfl, rfl, rfl, rfl⟩

end Call

/-! ### What changes no place -/

section Others

variable {cfg : Config} {m m' : Machine} {d : ℕ}

/-- A signal goes from the loop to the socket. -/
theorem sendSignalToRoot_follows (h : m.Sound cfg) (hd : d < cfg.root) {i : ℕ}
    (hs : sendSignalToRoot cfg m d i = .ok m') : Follows cfg m m' := by
  unfold sendSignalToRoot at hs
  split at hs
  · cases hs
  · rename_i comm msg hget
    cases hs
    have hne : d ≠ cfg.root := Nat.ne_of_lt hd
    obtain ⟨hi, hmsg⟩ := List.getElem?_eq_some_iff.mp hget
    have hperm : ((comm, msg) :: (m.signalling d).eraseIdx i).Perm (m.signalling d) := by
      have hperm := List.getElem_cons_eraseIdx_perm hi
      rwa [hmsg] at hperm
    have hin : (comm, msg) ∈ m.signalling d := hperm.mem_iff.mp List.mem_cons_self
    have hother (comm' : Comm) (d' : ℕ) :
        ¬(comm' = comm ∧ cfg.root = d ∧ d' = cfg.root) := fun h => hne h.2.1.symm
    constructor
    · refine ⟨h.reachable, h.stages, h.one, h.compressing, h.grouped, ?_, ?_, ?_, ?_⟩
      · intro d' x hx
        dsimp only at hx
        rw [Function.update_apply] at hx
        split at hx
        · rename_i hd'
          exact h.signalling d x (hperm.mem_iff.mp (List.mem_cons_of_mem _ hx))
        · exact h.signalling d' x hx
      · intro comm' d' hd' msg' hmsg'
        unfold setInFlight at hmsg'
        dsimp only at hmsg'
        split at hmsg'
        · rename_i heq
          rcases List.mem_append.mp hmsg' with hmsg' | hmsg'
          · exact h.toRoot comm d hd msg' hmsg'
          · rw [List.mem_singleton.mp hmsg']
            exact h.signalling d _ hin
        · exact h.toRoot comm' d' hd' msg' hmsg'
      · intro d' hd' msg' hmsg'
        unfold setInFlight at hmsg'
        dsimp only at hmsg'
        rw [if_neg (hother .basic d')] at hmsg'
        exact h.toCopy d' hd' msg' hmsg'
      · intro d' hd' msg' hmsg'
        unfold setInFlight at hmsg'
        dsimp only at hmsg'
        rw [if_neg (hother .nccl d')] at hmsg'
        exact h.toCall d' hd' msg' hmsg'
    · intro k
      refine .inl (KeyState.ext rfl ?_ ?_ rfl rfl rfl)
      · funext d' signal
        have hcount : signalsOf k signal ((m.signalling d).map (·.2)) =
            signalsOf k signal (((m.signalling d).eraseIdx i).map (·.2)) +
              if msg.signal = signal ∧ msg.key = k then 1 else 0 := by
          have hcount := (hperm.map (·.2)).countP_eq
            fun msg : CommMsg => decide (msg.signal = signal ∧ msg.key = k)
          rw [List.map_cons] at hcount
          exact hcount.symm.trans signalsOf_cons
        unfold view setInFlight
        dsimp only
        rw [Function.update_apply]
        by_cases hd' : d' = d
        · subst hd'
          rw [if_pos rfl, hcount]
          cases comm with
          | basic =>
              simp
              omega
          | nccl =>
              simp
              omega
        · simp [hd']
      · funext d' signal
        unfold view setInFlight
        dsimp only
        rw [if_neg (hother .basic d'), if_neg (hother .nccl d')]

/-- The end of a group is told to all. -/
theorem endGroup_follows (hsize : 2 ≤ cfg.localSize) (h : m.Sound cfg) :
    Follows cfg m (endGroup cfg m) := by
  unfold endGroup
  split
  · exact ⟨h, fun k => .inl rfl⟩
  · have hinFlight (comm : Comm) (i : ℕ) {msg : CommMsg}
        (hmsg : msg ∈ (m.broadcastSignal cfg .nccl ⟨cfg.root, .doGroup, 0⟩).inFlight comm
          cfg.root i) :
        msg ∈ m.inFlight comm cfg.root i ∨ comm = .nccl ∧ msg = ⟨cfg.root, .doGroup, 0⟩ := by
      rw [inFlight_broadcast hsize _ rfl] at hmsg
      rcases List.mem_append.mp hmsg with hmsg | hmsg
      · exact .inl hmsg
      · split at hmsg
        · rename_i hcomm
          exact .inr ⟨hcomm.1, List.mem_singleton.mp hmsg⟩
        · cases hmsg
    constructor
    · refine { h with grouped := ?_, toRoot := ?_, toCopy := ?_, toCall := ?_ }
      · intro d' u hu
        exact h.grouped d' u (mem_enqueueGroup hu)
      · intro comm d' hd' msg hmsg
        change msg ∈ (m.broadcastSignal cfg .nccl ⟨cfg.root, .doGroup, 0⟩).inFlight comm d' cfg.root
          at hmsg
        rw [inFlight_broadcast_root _ rfl] at hmsg
        exact h.toRoot comm d' hd' msg hmsg
      · intro d' hd' msg hmsg
        rcases hinFlight .basic d' hmsg with hmsg | ⟨hcomm, _⟩
        · exact h.toCopy d' hd' msg hmsg
        · cases hcomm
      · intro d' hd' msg hmsg
        rcases hinFlight .nccl d' hmsg with hmsg | ⟨_, rfl⟩
        · exact h.toCall d' hd' msg hmsg
        · exact ⟨rfl, .inl rfl⟩
    · intro k
      refine .inl (KeyState.ext rfl ?_ ?_ rfl rfl rfl)
      · exact sending_broadcast cfg m k .nccl ⟨cfg.root, .doGroup, 0⟩ rfl
      · exact coming_broadcast_group m k .nccl hsize ⟨cfg.root, .doGroup, 0⟩ rfl rfl

/-- The root sets the count of a key for the push to full. -/
theorem readyTable_reset (hsize : 2 ≤ cfg.localSize) (s : Pipeline) (key k : ℕ) (name : TableName) :
    ((setTable (cfg.setup cfg.root) s .push ((tableOf (cfg.setup cfg.root) s .push).map
      (·.setReadyCount key (cfg.localSize - 1)))).tables name).readyTable k =
        if name = .push ∧ key = k then (cfg.root : ℤ) else (s.tables name).readyTable k := by
  rw [tables_setTable]
  have hrole : readyTableOf (cfg.setup cfg.root).role .push = some .push := by
    change readyTableOf (cfg.role cfg.root) .push = _
    unfold Config.role
    rw [decide_eq_true rfl]
    rfl
  rw [hrole]
  by_cases hname : name = .push
  · rw [if_pos (by rw [hname]), hname]
    change Function.update (s.tables .push).readyTable key ((cfg.localSize : ℤ) - 1) k = _
    rw [Function.update_apply]
    by_cases hk : k = key
    · rw [if_pos hk, if_pos ⟨rfl, hk.symm⟩]
      unfold Config.root
      omega
    · rw [if_neg hk, if_neg fun h => hk h.2.symm]
  · rw [if_neg fun h => hname (Option.some.inj h).symm, if_neg fun h => hname h.1]

/-- The thread pool restores what the compression has cleared. -/
theorem runCompress_follows (hsize : 2 ≤ cfg.localSize) (h : m.Sound cfg) {t : Task}
    (hs : runCompress cfg m t = .ok m') : Follows cfg m m' := by
  unfold runCompress at hs
  split at hs
  · rename_i ht
    obtain ⟨htaken, hhead⟩ := h.compressing t ht
    obtain ⟨_, rest, hlist⟩ := h.compress_tail (mem_places_of_taken htaken) hhead
    have hlist : t.queueList = .compress :: .push :: rest := hlist
    rw [hlist] at hs
    dsimp only at hs
    obtain ⟨s, hrun, hs⟩ := bind_eq_ok hs
    have hm' : { m.setPipeline cfg.root s with compressing := m.compressing.erase t } = m' :=
      Except.ok.inj hs
    subst hm'
    have hs' : setTable (cfg.setup cfg.root) (m.pipeline cfg.root) .push
        ((tableOf (cfg.setup cfg.root) (m.pipeline cfg.root) .push).map
          (·.setReadyCount t.key (cfg.localSize - 1))) = s := Except.ok.inj hrun
    obtain ⟨tables, htables⟩ := setTable_eq (cfg.setup cfg.root) (m.pipeline cfg.root) .push
      ((tableOf (cfg.setup cfg.root) (m.pipeline cfg.root) .push).map
        (·.setReadyCount t.key (cfg.localSize - 1)))
    have hcounts (name : TableName) (k : ℕ) : (s.tables name).readyTable k =
        if name = .push ∧ t.key = k then (cfg.root : ℤ)
        else ((m.pipeline cfg.root).tables name).readyTable k := by
      rw [← hs']
      exact readyTable_reset hsize _ t.key k name
    rw [htables] at hs'
    have hplaces : s.places = (m.pipeline cfg.root).places := by rw [← hs']; rfl
    have hstaken : s.taken = (m.pipeline cfg.root).taken := by rw [← hs']
    have hissued : s.issued = (m.pipeline cfg.root).issued := by rw [← hs']
    obtain ⟨hone, hposition⟩ := (h.one cfg.root).same fun k => by rw [hplaces]
    have hstep : DeviceStep cfg m
        { m.setPipeline cfg.root s with compressing := m.compressing.erase t }
        cfg.root s :=
      ⟨rfl, .next (h.reachable cfg.root) hrun, by rw [hissued]; exact h.stages cfg.root, hone⟩
    constructor
    · refine h.of_step hstep ?_ h.grouped h.signalling fun _ _ _ _ hmsg => hmsg
      intro u hu
      rw [hstaken]
      exact ⟨List.mem_of_mem_erase hu, id⟩
    · intro k
      have hcount : (m.view cfg k).compressing =
          (m.compressing.erase t).countP (fun t => decide (t.key = k)) +
            if t.key = k then 1 else 0 := by
        have hcount := (List.perm_cons_erase ht).countP_eq fun t : Task => decide (t.key = k)
        rw [List.countP_cons] at hcount
        simp only [decide_eq_true_eq] at hcount
        exact hcount
      by_cases hk : t.key = k
      · right
        subst hk
        rw [if_pos rfl] at hcount
        have heq : { m.setPipeline cfg.root s with compressing := m.compressing.erase t }.view
            cfg t.key =
            { m.view cfg t.key with
              table := fun d name => if d = cfg.root ∧ name = .push then (cfg.root : ℤ)
                else (m.view cfg t.key).table d name
              compressing := (m.view cfg t.key).compressing - 1 } := by
          refine KeyState.ext ?_ rfl rfl ?_ ?_ rfl
          · exact hstep.view_position_same (hposition _)
          · rw [hcount]
            rfl
          · funext d' name
            rw [hstep.view_table, hcounts]
            by_cases hd' : d' = cfg.root
            · subst hd'
              simp only [true_and, and_true, if_true]
              rfl
            · simp only [hd', false_and, if_false]
        rw [heq]
        refine .restore ?_
        omega
      · left
        rw [if_neg hk] at hcount
        refine KeyState.ext ?_ rfl rfl hcount.symm ?_ rfl
        · exact hstep.view_position_same (hposition k)
        · apply hstep.view_table_same
          intro name
          rw [hcounts, if_neg fun h => hk h.2]
  · cases hs

end Others

end Machine

end DeepInc.Worker
