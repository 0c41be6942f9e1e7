/-
A machine gets through what it has begun.

What is left to do is counted.  A task has to be taken and handed back once for every stage;
what that sets off, a signal to every other device, a place in a group, a callback, is less than
what it takes off.  A signal that is sent, heard or obeyed, a group that is ended or
synchronised and a task that is compressed take something off as well.  So a machine that begins
nothing new does only so many steps; and as long as a device is not through, it can do one,
which is in `Enabled.lean`.

Three things are assumed of what is outside of the model.  A device that synchronises a group
waits for NCCL, and NCCL for the other devices of the collective; all that is asked of it is
that it is over when all devices have launched as many calls.  A ready event that a task waits
for comes.  And no tensor has a compressor, since the process ends in `SetReadyCount`, which is
called after a compression and does not return a value.

Then every run in which some thread does something while there is something to do comes to a
state in which all devices are through, and each has taken and finished every key for every
stage as often as it has begun it.
-/
import DeepInc.Lib.Drain
import DeepInc.Proofs.Worker.Enabled

namespace DeepInc.Worker

open Transition Outcome

/-! ### What is left on a device

A task in a queue with `n` stages left has `2 * n` steps ahead of it, and one less when a loop
has it.  A callback that is under way counts too.
-/

/-- How often a task has still to be taken and handed back. -/
def Place.stepsLeft (x : Place × Task) : ℕ :=
  match x.1 with
  | .adding _ => 0
  | .queue _ => 2 * x.2.queueList.length
  | .taken => 2 * x.2.queueList.length - 1

/-- What is left of a `FinishOrProceed` that has called back. -/
def Phase.stepsLeft : Phase → ℕ
  | .commTime => 3
  | .stepCnt => 2
  | .profileFlag => 1

namespace Pipeline

variable {setup : Setup} {s s' : Pipeline} {now : ℤ}

def stepsLeft (s : Pipeline) : ℕ := (s.places.map Place.stepsLeft).sum

def callsLeft (s : Pipeline) : ℕ := (s.completing.map fun c => c.phase.stepsLeft).sum

theorem stepsLeft_of_perm {x : Place × Task} {R : List (Place × Task)}
    (h : s.places.Perm (x :: R)) :
    s.stepsLeft = Place.stepsLeft x + (R.map Place.stepsLeft).sum := by
  unfold stepsLeft
  rw [(h.map Place.stepsLeft).sum_nat, List.map_cons, List.sum_cons]

/-- A task is taken: that is one step less. -/
theorem stepsLeft_take {op : QueueType} {t u : Task} {R : List (Place × Task)}
    (hlist : u.queueList = t.queueList) (hne : t.queueList ≠ [])
    (hbefore : s.places.Perm ((.queue op, u) :: R)) (hafter : s'.places.Perm ((.taken, t) :: R)) :
    s'.stepsLeft + 1 = s.stepsLeft := by
  rw [stepsLeft_of_perm hbefore, stepsLeft_of_perm hafter]
  unfold Place.stepsLeft
  dsimp only
  rw [hlist]
  have := List.length_pos_of_ne_nil hne
  omega

/-- A task is handed back: that is one step less, and may be a callback more. -/
theorem stepsLeft_finish {t : Task} (h : finishOrProceed setup s t now = .ok s') :
    s'.stepsLeft + 1 = s.stepsLeft ∧ s'.callsLeft ≤ s.callsLeft + 3 := by
  obtain ⟨ht, op, rest, p, hlist, -, hcases⟩ := finishOrProceed_cases h
  have hbefore := stepsLeft_of_perm (places_reportTask ht op p)
  have htaken : Place.stepsLeft (.taken, t) = 2 * rest.length + 1 := by
    unfold Place.stepsLeft
    dsimp only
    rw [hlist, List.length_cons]
    omega
  rcases hcases with ⟨next, rest', q, rfl, hq, rfl⟩ | ⟨rfl, hpart⟩
  · have hafter := stepsLeft_of_perm (places_setQueue hq)
    refine ⟨?_, Nat.le_add_right _ _⟩
    rw [hbefore, htaken, hafter]
    unfold Place.stepsLeft
    dsimp only [List.length_cons]
    omega
  · obtain ⟨call, -, hcases⟩ := finishPart_spec hpart
    rw [hbefore, htaken]
    rcases hcases with ⟨-, rfl⟩ | ⟨-, rfl⟩
    · exact ⟨(Nat.add_comm _ _), Nat.le_add_right _ _⟩
    · refine ⟨(Nat.add_comm _ _), ?_⟩
      unfold callsLeft
      dsimp only
      rw [List.map_append, List.sum_append]
      exact Nat.le_refl _

/-- A callback goes on. -/
theorem callsLeft_complete {i : ℕ} (h : complete setup s i now = .ok s') :
    s'.stepsLeft = s.stepsLeft ∧ s'.callsLeft + 1 = s.callsLeft := by
  have hsteps : s'.stepsLeft = s.stepsLeft := by
    unfold stepsLeft
    rw [(complete_tables h).2.2.2]
  refine ⟨hsteps, ?_⟩
  unfold complete at h
  cases hc : s.completing[i]? with
  | none =>
      rw [hc] at h
      cases h
  | some c =>
      obtain ⟨hi, hget⟩ := List.getElem?_eq_some_iff.mp hc
      have hold : s.callsLeft = c.phase.stepsLeft +
          ((s.completing.eraseIdx i).map fun c => c.phase.stepsLeft).sum := by
        have hperm := (List.getElem_cons_eraseIdx_perm hi).map fun c => c.phase.stepsLeft
        rw [List.map_cons, hget] at hperm
        exact hperm.sum_nat.symm
      have hset (c' : Completing) : ((s.completing.set i c').map fun c => c.phase.stepsLeft).sum =
          c'.phase.stepsLeft + ((s.completing.eraseIdx i).map fun c => c.phase.stepsLeft).sum := by
        have hperm := (List.set_perm_cons_eraseIdx hi c').map fun c => c.phase.stepsLeft
        rw [List.map_cons] at hperm
        exact hperm.sum_nat
      rw [hold]
      simp only [hc] at h
      split at h
      · rename_i hphase
        obtain ⟨p, -, h⟩ := bind_eq_ok h
        obtain rfl := Except.ok.inj h
        unfold callsLeft
        dsimp only
        rw [hset, hphase]
        dsimp only [Phase.stepsLeft]
        omega
      · rename_i hphase
        obtain rfl := Except.ok.inj h
        unfold callsLeft
        dsimp only
        rw [hset, hphase]
        dsimp only [Phase.stepsLeft]
        omega
      · rename_i hphase
        obtain ⟨p, -, h⟩ := bind_eq_ok h
        obtain rfl := Except.ok.inj h
        unfold callsLeft
        dsimp only
        rw [hphase]
        dsimp only [Phase.stepsLeft]
        omega

end Pipeline

namespace Machine

/-! ### What is left on a machine

The weights are chosen so that every step takes more off than it adds.  A step of a task weighs
more than all it can set off: a signal to every other device, which is then sent, heard and
obeyed, and a callback.
-/

section Work

variable (cfg : Config) (m : Machine)

/-- What is left for the threads of a device. -/
def deviceWork (d : ℕ) : ℕ :=
  (6 * cfg.localSize + 6) * (m.pipeline d).stepsLeft + (m.pipeline d).callsLeft +
    2 * (m.signalling d).length + (m.ncclPipeline d).length

/-- The signals between the root and another device. -/
def signalWork (i : ℕ) : ℕ :=
  (m.inFlight .basic i cfg.root).length + (m.inFlight .nccl i cfg.root).length +
    3 * ((m.inFlight .basic cfg.root i).length + (m.inFlight .nccl cfg.root i).length)

def signalsWork : ℕ := ∑ i ∈ Finset.range cfg.root, signalWork cfg m i

def work : ℕ :=
  ∑ d ∈ Finset.range (cfg.root + 1), deviceWork cfg m d + signalsWork cfg m +
    3 * cfg.localSize * (m.group cfg.root).length + m.compressing.length

end Work

/-- There is less left to do, and nothing was begun. -/
def Settles (cfg : Config) (m m' : Machine) : Prop :=
  work cfg m' < work cfg m ∧ ∀ d k, begunCount m'.log d k = begunCount m.log d k

section Settles

variable {cfg : Config} {m m' : Machine} {d : ℕ} {s : Pipeline} {now : ℤ}

/-- What a step does that changes one device and the signals. -/
theorem work_lt_of_device (hd : d ≤ cfg.root) {a b : ℕ}
    (hdevice : deviceWork cfg m' d + a ≤ deviceWork cfg m d + b)
    (hother : ∀ d' ≠ d, deviceWork cfg m' d' = deviceWork cfg m d') {c e : ℕ}
    (hsignals : signalsWork cfg m' + c ≤ signalsWork cfg m + e)
    (hrest : 3 * cfg.localSize * (m'.group cfg.root).length + m'.compressing.length + b + e <
      3 * cfg.localSize * (m.group cfg.root).length + m.compressing.length + a + c) :
    work cfg m' < work cfg m := by
  have hdevices := sum_add_le (n := cfg.root + 1) (i := d) (f := deviceWork cfg m')
    (g := deviceWork cfg m) (by omega) hdevice fun j _ hj => Nat.le_of_eq (hother j hj)
  unfold work
  omega

theorem signals_same (h : m'.inFlight = m.inFlight) :
    signalsWork cfg m' + 0 ≤ signalsWork cfg m + 0 := by
  have hsum : signalsWork cfg m' = signalsWork cfg m := by
    refine Finset.sum_congr rfl fun i _ => ?_
    unfold signalWork
    rw [h]
  rw [hsum]

/-- What the root tells the others makes three steps at most for each. -/
theorem signals_broadcast (hsize : 2 ≤ cfg.localSize) {comm : Comm} {msg : CommMsg}
    (hsrc : msg.src = cfg.root)
    (h : m'.inFlight = (m.broadcastSignal cfg comm msg).inFlight) :
    signalsWork cfg m' + 0 ≤ signalsWork cfg m + 3 * cfg.root := by
  have hone : ∀ i ∈ Finset.range cfg.root, signalWork cfg m' i = signalWork cfg m i + 3 := by
    intro i hi
    have hi := Finset.mem_range.mp hi
    unfold signalWork
    rw [h, inFlight_broadcast_root msg hsrc, inFlight_broadcast_root msg hsrc,
      inFlight_broadcast hsize msg hsrc, inFlight_broadcast hsize msg hsrc]
    have hadd : (((if Comm.basic = comm ∧ i < cfg.root then [msg] else []).length +
        (if Comm.nccl = comm ∧ i < cfg.root then [msg] else []).length) : ℕ) = 1 := by
      cases comm with
      | basic => rw [if_pos ⟨rfl, hi⟩, if_neg (fun h => by cases h.1)]; rfl
      | nccl => rw [if_neg (fun h => by cases h.1), if_pos ⟨rfl, hi⟩]; rfl
    rw [List.length_append, List.length_append]
    omega
  have hconst : ∑ _i ∈ Finset.range cfg.root, 3 = cfg.root * 3 := by
    rw [Finset.sum_const_nat fun _ _ => rfl, Finset.card_range]
  unfold signalsWork
  rw [Finset.sum_congr rfl hone, Finset.sum_add_distrib, hconst, Nat.mul_comm cfg.root 3]
  exact Nat.le_refl _

/-- Signals that are written where `signalWork` does not count them. -/
theorem inFlight_of_ne {comm c : Comm} {src dst i j : ℕ} {msgs : List CommMsg}
    (h : m'.inFlight = (m.setInFlight comm src dst msgs).inFlight) (hne : i ≠ src ∨ j ≠ dst) :
    m'.inFlight c i j = m.inFlight c i j := by
  rw [h]
  exact if_neg fun heq => hne.elim (fun hi => hi heq.2.1) fun hj => hj heq.2.2

theorem inFlight_of_comm {comm c : Comm} {src dst : ℕ} {msgs : List CommMsg}
    (h : m'.inFlight = (m.setInFlight comm src dst msgs).inFlight) :
    m'.inFlight c src dst = if c = comm then msgs else m.inFlight c src dst := by
  rw [h]
  unfold setInFlight
  dsimp only
  by_cases hc : c = comm
  · rw [if_pos ⟨hc, rfl, rfl⟩, if_pos hc]
  · rw [if_neg fun heq => hc heq.1, if_neg hc]

/-- The signals to the root are written. -/
theorem signals_toRoot (hd : d < cfg.root) {comm : Comm} {msgs : List CommMsg}
    (h : m'.inFlight = (m.setInFlight comm d cfg.root msgs).inFlight) :
    signalsWork cfg m' + (m.inFlight comm d cfg.root).length ≤
      signalsWork cfg m + msgs.length := by
  refine sum_add_le hd ?_ fun j hj hne => Nat.le_of_eq ?_
  · unfold signalWork
    rw [inFlight_of_comm h, inFlight_of_comm h, inFlight_of_ne h (.inl (Nat.ne_of_gt hd)),
      inFlight_of_ne h (.inl (Nat.ne_of_gt hd))]
    cases comm with
    | basic =>
        rw [if_pos rfl, if_neg (by decide)]
        omega
    | nccl =>
        rw [if_pos rfl, if_neg (by decide)]
        omega
  · unfold signalWork
    rw [inFlight_of_ne h (.inl hne), inFlight_of_ne h (.inl hne),
      inFlight_of_ne h (.inl (Nat.ne_of_gt hd)), inFlight_of_ne h (.inl (Nat.ne_of_gt hd))]

/-- The signals of the root to another device are written. -/
theorem signals_toPeer (hd : d < cfg.root) {comm : Comm} {msgs : List CommMsg}
    (h : m'.inFlight = (m.setInFlight comm cfg.root d msgs).inFlight) :
    signalsWork cfg m' + 3 * (m.inFlight comm cfg.root d).length ≤
      signalsWork cfg m + 3 * msgs.length := by
  refine sum_add_le hd ?_ fun j hj hne => Nat.le_of_eq ?_
  · unfold signalWork
    rw [inFlight_of_comm h, inFlight_of_comm h, inFlight_of_ne h (.inl (Nat.ne_of_lt hd)),
      inFlight_of_ne h (.inl (Nat.ne_of_lt hd))]
    cases comm with
    | basic =>
        rw [if_pos rfl, if_neg (by decide)]
        omega
    | nccl =>
        rw [if_pos rfl, if_neg (by decide)]
        omega
  · unfold signalWork
    rw [inFlight_of_ne h (.inr hne), inFlight_of_ne h (.inr hne),
      inFlight_of_ne h (.inl (Nat.ne_of_lt hj)), inFlight_of_ne h (.inl (Nat.ne_of_lt hj))]

/-- What a step does to a device it does not change. -/
theorem deviceWork_of_ne (hpipeline : m'.pipeline = Function.update m.pipeline d s)
    (hsignalling : ∀ d' ≠ d, m'.signalling d' = m.signalling d')
    (hnccl : ∀ d' ≠ d, m'.ncclPipeline d' = m.ncclPipeline d') {d' : ℕ} (hd : d' ≠ d) :
    deviceWork cfg m' d' = deviceWork cfg m d' := by
  unfold deviceWork
  rw [hpipeline, Function.update_of_ne hd, hsignalling d' hd, hnccl d' hd]

/-- Only the begin of a task is counted. -/
theorem begunCount_other {log : List Event} {e : Event} (he : ∀ d k, e ≠ .begun d k) (d k : ℕ) :
    begunCount (e :: log) d k = begunCount log d k :=
  List.count_cons_of_ne (he d k)

/-! ### Every step takes something off -/

theorem LoopTook.settles (hsize : 2 ≤ cfg.localSize) (hd : d ≤ cfg.root) {op : QueueType}
    {t : Task} (h : LoopTook cfg m d op t s m') : Settles cfg m m' := by
  have hbody := h.body
  have hpipeline : m'.pipeline = Function.update m.pipeline d s := hbody.pipeline
  have hsignalling : m'.signalling = m.signalling := hbody.signalling
  have hnccl : m'.ncclPipeline = m.ncclPipeline := hbody.ncclPipeline
  constructor
  · obtain ⟨u, R, hlist, hbefore, hafter⟩ := h.moved
    have hne : t.queueList ≠ [] := by
      intro hnil
      have hhead := h.head
      rw [hnil] at hhead
      cases hhead
    have hsteps := Pipeline.stepsLeft_take hlist hne hbefore hafter
    have hdevice : deviceWork cfg m' d + (6 * cfg.localSize + 6) ≤ deviceWork cfg m d + 0 := by
      unfold deviceWork Pipeline.callsLeft
      rw [hpipeline, Function.update_self, hsignalling, hnccl, h.completing, ← hsteps,
        Nat.mul_add, Nat.mul_one]
      omega
    have hgroup : (m'.group cfg.root).length ≤ (m.group cfg.root).length + 1 := by
      rw [hbody.group]
      split
      · show (Function.update m.group d (m.group d ++ [t]) cfg.root).length ≤ _
        rw [Function.update_apply]
        split
        · rename_i heq
          rw [← heq, List.length_append, List.length_singleton]
        · exact Nat.le_succ _
      · exact Nat.le_succ _
    have hcompressing : m'.compressing.length ≤ m.compressing.length + 1 := by
      rw [hbody.compressing]
      split
      · exact Nat.le_refl _
      · exact Nat.le_succ _
    have hsignals : signalsWork cfg m' + 0 ≤ signalsWork cfg m + 3 * cfg.root := by
      rcases hbody.inFlight with ⟨-, hsame⟩ | ⟨-, signal, comm, -, -, hsame⟩
      · have hsame : m'.inFlight = m.inFlight := hsame
        have hsum : signalsWork cfg m' + 0 ≤ signalsWork cfg m + 0 := signals_same hsame
        omega
      · exact signals_broadcast (m := m) hsize rfl hsame
    refine work_lt_of_device hd hdevice
      (fun d' hd' => deviceWork_of_ne hpipeline (fun _ _ => by rw [hsignalling])
        (fun _ _ => by rw [hnccl]) hd') hsignals ?_
    have hroot : cfg.root < cfg.localSize := by
      unfold Config.root
      omega
    have hgroup := Nat.mul_le_mul_left (3 * cfg.localSize) hgroup
    rw [Nat.mul_add, Nat.mul_one] at hgroup
    omega
  · intro d' k
    rw [hbody.log]
    exact begunCount_other (fun _ _ h => by cases h) d' k

/-- A loop hands a task back, and what it signals is less than what it takes off. -/
theorem finish_settles (hd : d ≤ cfg.root) {op : QueueType} {t : Task}
    (hs : finishOrProceed (cfg.setup d) (m.pipeline d) t now = .ok s)
    (hpipeline : m'.pipeline = Function.update m.pipeline d s)
    (hsignalling : (m'.signalling d).length ≤ (m.signalling d).length + 1 ∧
      ∀ d' ≠ d, m'.signalling d' = m.signalling d')
    (hnccl : (m'.ncclPipeline d).length = (m.ncclPipeline d).length ∧
      ∀ d' ≠ d, m'.ncclPipeline d' = m.ncclPipeline d')
    (hinFlight : m'.inFlight = m.inFlight) (hgroup : m'.group = m.group)
    (hcompressing : m'.compressing = m.compressing)
    (hlog : m'.log = .finished d op t.key :: m.log) : Settles cfg m m' := by
  constructor
  · obtain ⟨hsteps, hcalls⟩ := Pipeline.stepsLeft_finish hs
    have hdevice : deviceWork cfg m' d + (6 * cfg.localSize + 6) ≤ deviceWork cfg m d + 5 := by
      unfold deviceWork
      rw [hpipeline, Function.update_self, hnccl.1, ← hsteps, Nat.mul_add, Nat.mul_one]
      omega
    refine work_lt_of_device hd hdevice
      (fun d' hd' => deviceWork_of_ne hpipeline hsignalling.2 hnccl.2 hd')
      (signals_same hinFlight) ?_
    rw [hgroup, hcompressing]
    omega
  · intro d' k
    rw [hlog]
    exact begunCount_other (fun _ _ h => by cases h) d' k

/-- The work of a device that the step leaves as it was. -/
theorem settles_of_rest (hdevices : ∀ d, deviceWork cfg m' d = deviceWork cfg m d)
    (hlog : ∀ d k, begunCount m'.log d k = begunCount m.log d k)
    (hrest : signalsWork cfg m' +
        3 * cfg.localSize * (m'.group cfg.root).length + m'.compressing.length <
      signalsWork cfg m +
        3 * cfg.localSize * (m.group cfg.root).length + m.compressing.length) :
    Settles cfg m m' := by
  have hsum : ∑ d ∈ Finset.range (cfg.root + 1), deviceWork cfg m' d =
      ∑ d ∈ Finset.range (cfg.root + 1), deviceWork cfg m d :=
    Finset.sum_congr rfl fun d _ => hdevices d
  refine ⟨?_, hlog⟩
  unfold work
  omega

theorem runFinish_settles (hd : d ≤ cfg.root) {t : Task}
    (hs : runFinish cfg m d now t = .ok m') : Settles cfg m m' := by
  unfold runFinish at hs
  cases hlist : t.queueList with
  | nil =>
      rw [hlist] at hs
      cases hs
  | cons op rest =>
      rw [hlist] at hs
      dsimp only at hs
      split at hs
      · cases hs
      · obtain ⟨m₁, hm₁, hs⟩ := bind_eq_ok hs
        obtain ⟨s, hs₁, hm₁⟩ := bind_eq_ok hm₁
        obtain rfl := Except.ok.inj hm₁
        obtain rfl := Except.ok.inj hs
        unfold coordinate
        split
        · refine finish_settles hd hs₁ rfl ⟨?_, fun d' hd' => ?_⟩ ⟨rfl, fun _ _ => rfl⟩ rfl rfl
            rfl rfl
          · dsimp only
            rw [Function.update_self, List.length_append, List.length_singleton]
            exact Nat.le_refl _
          · exact Function.update_of_ne hd' _ _
        · exact finish_settles hd hs₁ rfl ⟨Nat.le_succ _, fun _ _ => rfl⟩ ⟨rfl, fun _ _ => rfl⟩
            rfl rfl rfl rfl

theorem runSyncNcclOnce_settles (hd : d ≤ cfg.root)
    (hs : runSyncNcclOnce cfg m d now = .ok m') : m' = m ∨ Settles cfg m m' := by
  unfold runSyncNcclOnce at hs
  split at hs
  · exact .inl (Except.ok.inj hs).symm
  · rename_i groups hgroups
    obtain rfl := Except.ok.inj hs
    refine .inr ⟨?_, fun _ _ => rfl⟩
    refine work_lt_of_device (a := 1) (b := 0) hd ?_ (fun d' hd' => ?_) (signals_same rfl)
      (Nat.lt_succ_self _)
    · unfold deviceWork
      dsimp only
      rw [Function.update_self, hgroups, List.length_cons]
      exact Nat.le_refl _
    · unfold deviceWork
      dsimp only
      rw [Function.update_of_ne hd']
  · rename_i t ts groups hgroups
    cases hlist : t.queueList with
    | nil =>
        rw [hlist] at hs
        cases hs
    | cons op rest =>
        rw [hlist] at hs
        obtain ⟨m₁, hm₁, hs⟩ := bind_eq_ok hs
        obtain ⟨s, hs₁, hm₁⟩ := bind_eq_ok hm₁
        obtain rfl := Except.ok.inj hm₁
        obtain rfl := Except.ok.inj hs
        refine .inr (finish_settles hd hs₁ rfl ⟨Nat.le_succ _, fun _ _ => rfl⟩
          ⟨?_, fun d' hd' => ?_⟩ rfl rfl rfl rfl)
        · dsimp only
          rw [Function.update_self, hgroups]
          rfl
        · exact Function.update_of_ne hd' _ _

/-- A pipeline goes on, and what is left for its device is as said. -/
theorem deviceWork_setPipeline (hpipeline : m'.pipeline = Function.update m.pipeline d s)
    (hsignalling : m'.signalling = m.signalling) (hnccl : m'.ncclPipeline = m.ncclPipeline)
    (hplaces : s.places = (m.pipeline d).places)
    (hcompleting : s.completing = (m.pipeline d).completing) (d' : ℕ) :
    deviceWork cfg m' d' = deviceWork cfg m d' := by
  by_cases hd : d' = d
  · subst hd
    unfold deviceWork Pipeline.stepsLeft Pipeline.callsLeft
    rw [hpipeline, Function.update_self, hsignalling, hnccl, hplaces, hcompleting]
  · exact deviceWork_of_ne hpipeline (fun _ _ => by rw [hsignalling]) (fun _ _ => by rw [hnccl]) hd

theorem runCompress_settles {t : Task} (hs : runCompress cfg m t = .ok m') :
    Settles cfg m m' := by
  unfold runCompress at hs
  split at hs
  · rename_i ht
    split at hs
    · rename_i op _ _
      obtain ⟨s, hrun, hs⟩ := bind_eq_ok hs
      have hm' := (Except.ok.inj hs).symm
      obtain ⟨tables, htables⟩ := setTable_eq (cfg.setup cfg.root) (m.pipeline cfg.root) op
        ((tableOf (cfg.setup cfg.root) (m.pipeline cfg.root) op).map
          (·.setReadyCount t.key (cfg.localSize - 1)))
      have hs' : setTable (cfg.setup cfg.root) (m.pipeline cfg.root) op _ = s :=
        Except.ok.inj hrun
      rw [htables] at hs'
      have hplaces : s.places = (m.pipeline cfg.root).places := by
        rw [← hs']
        rfl
      have hcompleting : s.completing = (m.pipeline cfg.root).completing := by rw [← hs']
      have hpipeline : m'.pipeline = Function.update m.pipeline cfg.root s := by rw [hm']; rfl
      have hsignalling : m'.signalling = m.signalling := by rw [hm']; rfl
      have hnccl : m'.ncclPipeline = m.ncclPipeline := by rw [hm']; rfl
      have hinFlight : m'.inFlight = m.inFlight := by rw [hm']; rfl
      have hgroup : m'.group = m.group := by rw [hm']; rfl
      have hlog : m'.log = m.log := by rw [hm']; rfl
      have hcompressing : m'.compressing.length + 1 = m.compressing.length := by
        rw [hm']
        dsimp only
        rw [List.length_erase_of_mem ht]
        have := List.length_pos_of_mem ht
        omega
      have hsum : signalsWork cfg m' + 0 ≤ signalsWork cfg m + 0 := signals_same hinFlight
      refine settles_of_rest
        (deviceWork_setPipeline hpipeline hsignalling hnccl hplaces hcompleting)
        (fun d k => by rw [hlog]) ?_
      rw [hgroup]
      omega
    · cases hs
  · cases hs

/-- The root ends a group, which takes something off for each of its calls. -/
theorem endGroup_settles (hsize : 2 ≤ cfg.localSize) :
    endGroup cfg m = m ∨ Settles cfg m (endGroup cfg m) := by
  unfold endGroup
  split
  · exact .inl rfl
  · rename_i hne
    refine .inr ⟨?_, fun _ _ => rfl⟩
    have hdevice : deviceWork cfg ((m.broadcastSignal cfg .nccl ⟨cfg.root, .doGroup, 0⟩).enqueueGroup
        cfg.root) cfg.root + 0 ≤ deviceWork cfg m cfg.root + 1 := by
      unfold deviceWork enqueueGroup broadcastSignal
      dsimp only
      rw [Function.update_self, List.length_append, List.length_singleton]
      omega
    refine work_lt_of_device (Nat.le_refl _) hdevice (fun d' hd' => ?_)
      (signals_broadcast (m := m) hsize rfl rfl) ?_
    · unfold deviceWork enqueueGroup broadcastSignal
      dsimp only
      rw [Function.update_of_ne hd']
    · have hpos := List.length_pos_of_ne_nil hne
      have hmul := Nat.mul_le_mul_left (3 * cfg.localSize) hpos
      have hroot : cfg.root < cfg.localSize := by
        unfold Config.root
        omega
      unfold enqueueGroup broadcastSignal
      dsimp only
      rw [Function.update_self, List.length_nil, Nat.mul_zero]
      omega

/-- A signal is heard, and counted in a table. -/
theorem heard_settles {m₁ : Machine} {e : Event} {name : TableName} {key : ℕ} {setup : Setup}
    (he : ∀ d k, e ≠ .begun d k)
    (hm₁ : ∃ comm src dst msgs, m₁ = m.setInFlight comm src dst msgs)
    (hsignals : signalsWork cfg m₁ + 1 ≤ signalsWork cfg m)
    (hm' : m' = (m₁.setPipeline d s).record e)
    (hs : (m.pipeline d).step setup (.addReadyCount name key) = .ok s) : Settles cfg m m' := by
  obtain ⟨comm, src, dst, msgs, rfl⟩ := hm₁
  have hcompleting : s.completing = (m.pipeline d).completing := by
    obtain ⟨rt, -, rfl⟩ := map_eq_ok hs
    rfl
  have hpipeline : m'.pipeline = Function.update m.pipeline d s := by rw [hm']; rfl
  have hsignalling : m'.signalling = m.signalling := by rw [hm']; rfl
  have hnccl : m'.ncclPipeline = m.ncclPipeline := by rw [hm']; rfl
  have hgroup : m'.group = m.group := by rw [hm']; rfl
  have hcompressing : m'.compressing = m.compressing := by rw [hm']; rfl
  have hlog : m'.log = e :: m.log := by rw [hm']; rfl
  have hsum : signalsWork cfg m' + 0 ≤ signalsWork cfg (m.setInFlight comm src dst msgs) + 0 :=
    signals_same (by rw [hm']; rfl)
  refine settles_of_rest
    (deviceWork_setPipeline hpipeline hsignalling hnccl (addReadyCount_cases hs).1 hcompleting)
    (fun d k => by rw [hlog, begunCount_other he]) ?_
  rw [hgroup, hcompressing]
  omega

/-- A signal to the root is heard. -/
theorem startListenThread_settles (hd : d < cfg.root) {comm : Comm}
    (hs : startListenThread cfg m d comm = .ok m') : Settles cfg m m' := by
  unfold startListenThread at hs
  split at hs
  · cases hs
  · rename_i msg msgs hmsgs
    split at hs
    · cases hs
    · obtain ⟨s, hrun, hs⟩ := bind_eq_ok hs
      refine heard_settles (fun _ _ h => by cases h) ⟨_, _, _, _, rfl⟩ ?_ (Except.ok.inj hs).symm hrun
      have hsum : signalsWork cfg (m.setInFlight comm d cfg.root msgs) +
          (m.inFlight comm d cfg.root).length ≤ signalsWork cfg m + msgs.length :=
        signals_toRoot hd rfl
      rw [hmsgs, List.length_cons] at hsum
      omega

/-- A signal is sent, which leaves less to do than to have it to send. -/
theorem sendSignalToRoot_settles (hd : d < cfg.root) {i : ℕ}
    (hs : sendSignalToRoot cfg m d i = .ok m') : Settles cfg m m' := by
  unfold sendSignalToRoot at hs
  split at hs
  · cases hs
  · rename_i comm msg hget
    obtain rfl := Except.ok.inj hs
    refine ⟨?_, fun _ _ => rfl⟩
    obtain ⟨hi, -⟩ := List.getElem?_eq_some_iff.mp hget
    refine work_lt_of_device (a := 2) (b := 0) (c := 0) (e := 1) (Nat.le_of_lt hd) ?_ (fun d' hd' => ?_) ?_
      (by dsimp only [setInFlight]; omega)
    · unfold deviceWork
      dsimp only [setInFlight]
      rw [Function.update_self, List.length_eraseIdx_of_lt hi]
      omega
    · unfold deviceWork
      dsimp only [setInFlight]
      rw [Function.update_of_ne hd']
    · have hsum : signalsWork cfg (m.setInFlight comm d cfg.root
          (m.inFlight comm d cfg.root ++ [msg])) + (m.inFlight comm d cfg.root).length ≤
          signalsWork cfg m + (m.inFlight comm d cfg.root ++ [msg]).length :=
        signals_toRoot hd rfl
      rw [List.length_append, List.length_singleton] at hsum
      show signalsWork cfg (m.setInFlight comm d cfg.root _) + 0 ≤ _
      omega

/-- The root has told a device to copy, and the device has heard it. -/
theorem runNonRootCopyListenLoopOnce_settles (hd : d < cfg.root)
    (hs : runNonRootCopyListenLoopOnce cfg m d = .ok m') : Settles cfg m m' := by
  unfold runNonRootCopyListenLoopOnce at hs
  split at hs
  · cases hs
  · rename_i msg msgs hmsgs
    obtain ⟨_, _, hs⟩ := bind_eq_ok hs
    obtain ⟨_, _, hs⟩ := bind_eq_ok hs
    obtain ⟨s, hrun, hs⟩ := bind_eq_ok hs
    refine heard_settles (fun _ _ h => by cases h) ⟨_, _, _, _, rfl⟩ ?_ (Except.ok.inj hs).symm hrun
    have hsum : signalsWork cfg (m.setInFlight .basic cfg.root d msgs) +
        3 * (m.inFlight .basic cfg.root d).length ≤ signalsWork cfg m + 3 * msgs.length :=
      signals_toPeer hd rfl
    rw [hmsgs, List.length_cons] at hsum
    omega

/-- What a signal on the NCCL socket has taken off, when a device has heard it. -/
theorem signals_heard (hd : d < cfg.root) {msg : CommMsg} {msgs : List CommMsg}
    (hmsgs : m.inFlight .nccl cfg.root d = msg :: msgs)
    (h : m'.inFlight = (m.setInFlight .nccl cfg.root d msgs).inFlight) :
    signalsWork cfg m' + 3 ≤ signalsWork cfg m + 0 := by
  have hsum := signals_toPeer hd h
  rw [hmsgs, List.length_cons] at hsum
  omega

/-- A device obeys a signal of the root. -/
theorem runNonRootNcclLoopOnce_settles (h : m.Sound cfg) (hd : d < cfg.root)
    {ready : ℕ → Bool} (hs : runNonRootNcclLoopOnce cfg m d ready now = .ok m') :
    Settles cfg m m' := by
  unfold runNonRootNcclLoopOnce at hs
  split at hs
  · cases hs
  · rename_i msg msgs hmsgs
    obtain ⟨_, _, hs⟩ := bind_eq_ok hs
    dsimp only at hs
    by_cases hgroup : msg.signal = .doGroup
    · rw [if_pos hgroup] at hs
      have hm' := (Except.ok.inj hs).symm
      have hsum : signalsWork cfg m' + 3 ≤ signalsWork cfg m + 0 :=
        signals_heard hd hmsgs (by rw [hm']; rfl)
      have hpipeline : m'.pipeline = m.pipeline := by rw [hm']; rfl
      have hsignalling : m'.signalling = m.signalling := by rw [hm']; rfl
      have hnccl : m'.ncclPipeline = Function.update m.ncclPipeline d
          (m.ncclPipeline d ++ [m.group d]) := by rw [hm']; rfl
      have hgroups : m'.group = Function.update m.group d [] := by rw [hm']; rfl
      have hcompressing : m'.compressing = m.compressing := by rw [hm']; rfl
      refine ⟨work_lt_of_device (a := 0) (b := 1) (Nat.le_of_lt hd) ?_ (fun d' hd' => ?_) hsum ?_,
        fun d' k => by rw [hm']; rfl⟩
      · unfold deviceWork
        rw [hpipeline, hsignalling, hnccl, Function.update_self, List.length_append,
          List.length_singleton]
        omega
      · unfold deviceWork
        rw [hpipeline, hsignalling, hnccl, Function.update_of_ne hd']
      · rw [hgroups, Function.update_of_ne (Nat.ne_of_gt hd), hcompressing]
        omega
    · rw [if_neg hgroup] at hs
      split at hs
      · cases hs
      · rename_i op hop
        obtain ⟨found, hfound, hs⟩ := bind_eq_ok hs
        cases found with
        | none => cases hs
        | some found =>
            obtain ⟨s, htake, hs⟩ := bind_eq_ok hs
            obtain ⟨t, ht', hperm, -, -⟩ := ScheduledQueue.getTaskOf_spec (orStop_eq_ok hfound)
            have htake : take { m.pipeline d with tables := (m.pipeline d).tables } op found.2
                found.1 now = .ok s := htake
            obtain ⟨R, hbefore, hafter⟩ := places_take hperm htake
            have hin : t ∈ ((m.pipeline d).queues op).sq := hperm.mem_iff.mpr List.mem_cons_self
            have hlist : t.queueList = found.1.queueList := by rw [ht']
            have hne : found.1.queueList ≠ [] := by
              intro hnil
              have hhead := h.head_of_queue hin
              rw [hlist, hnil] at hhead
              cases hhead
            have hcompleting : s.completing = (m.pipeline d).completing := by
              obtain ⟨p, -, rfl⟩ := take_cases htake
              rfl
            have hm' := (Except.ok.inj hs).symm
            have hsum : signalsWork cfg m' + 3 ≤ signalsWork cfg m + 0 :=
              signals_heard hd hmsgs (by rw [hm']; rfl)
            have hpipeline : m'.pipeline = Function.update m.pipeline d s := by rw [hm']; rfl
            have hsignalling : m'.signalling = m.signalling := by rw [hm']; rfl
            have hnccl : m'.ncclPipeline = m.ncclPipeline := by rw [hm']; rfl
            have hgroups : m'.group =
                Function.update m.group d (m.group d ++ [found.1]) := by rw [hm']; rfl
            have hcompressing : m'.compressing = m.compressing := by rw [hm']; rfl
            have hlog : m'.log = .got d op found.1.key :: m.log := by rw [hm']; rfl
            have hsteps := Pipeline.stepsLeft_take (s := m.pipeline d) hlist hne hbefore hafter
            have hdevice : deviceWork cfg m' d + (6 * cfg.localSize + 6) ≤
                deviceWork cfg m d + 0 := by
              unfold deviceWork Pipeline.callsLeft
              rw [hpipeline, Function.update_self, hsignalling, hnccl, hcompleting, ← hsteps,
                Nat.mul_add, Nat.mul_one]
              omega
            refine ⟨work_lt_of_device (Nat.le_of_lt hd) hdevice (fun d' hd' =>
              deviceWork_of_ne hpipeline (fun _ _ => by rw [hsignalling])
                (fun _ _ => by rw [hnccl]) hd') hsum ?_, fun d' k => ?_⟩
            · rw [hgroups, Function.update_of_ne (Nat.ne_of_gt hd), hcompressing]
              omega
            · rw [hlog]
              exact begunCount_other (fun _ _ h => by cases h) d' k

theorem stepDevice_settles (hsize : 2 ≤ cfg.localSize) (h : m.Sound cfg) (hd : d ≤ cfg.root)
    {a : DeviceAct} (hgo : GoesOn (.device d a)) (hs : stepDevice cfg m d a = .ok m') :
    m' = m ∨ Settles cfg m m' := by
  cases a with
  | enqueueTensor args now => exact absurd hgo id
  | addNext call => exact absurd hgo id
  | getTask op ready now =>
      rcases runLoopOnce_cases hsize h hs with hsame | ⟨t, s, htook⟩
      · exact .inl hsame
      · exact .inr (htook.settles hsize hd)
  | finish t now => exact .inr (runFinish_settles hd hs)
  | syncNccl now => exact runSyncNcclOnce_settles hd hs
  | complete i now =>
      obtain ⟨s, hrun, hm'⟩ := map_eq_ok hs
      have hpipeline : m'.pipeline = Function.update m.pipeline d s := by rw [← hm']; rfl
      have hsignalling : m'.signalling = m.signalling := by rw [← hm']; rfl
      have hnccl : m'.ncclPipeline = m.ncclPipeline := by rw [← hm']; rfl
      have hinFlight : m'.inFlight = m.inFlight := by rw [← hm']; rfl
      have hgroup : m'.group = m.group := by rw [← hm']; rfl
      have hcompressing : m'.compressing = m.compressing := by rw [← hm']; rfl
      obtain ⟨hsteps, hcalls⟩ := Pipeline.callsLeft_complete hrun
      have hdevice : deviceWork cfg m' d + 1 ≤ deviceWork cfg m d + 0 := by
        unfold deviceWork
        rw [hpipeline, Function.update_self, hsignalling, hnccl, hsteps, ← hcalls]
        omega
      refine .inr ⟨work_lt_of_device hd hdevice (fun d' hd' => deviceWork_of_ne hpipeline
        (fun _ _ => by rw [hsignalling]) (fun _ _ => by rw [hnccl]) hd') (signals_same hinFlight) ?_,
        fun d' k => by rw [← hm']; rfl⟩
      rw [hgroup, hcompressing]
      omega

/-- Every step of a machine that goes on changes nothing, or leaves less to do. -/
theorem works_settles {synchronized : Synchronized} (hsize : 2 ≤ cfg.localSize) (h : m.Sound cfg)
    {a : Act} (hs : Works cfg synchronized m a m') : m' = m ∨ Settles cfg m m' := by
  obtain ⟨hgo, -, hs⟩ := hs
  cases a with
  | device d a =>
      have hs : (if d < cfg.localSize then stepDevice cfg m d a else .error .notEnabled) =
          .ok m' := hs
      split at hs
      · rename_i hd
        exact stepDevice_settles hsize h (Nat.le_sub_one_of_lt hd) hgo hs
      · cases hs
  | root a =>
      cases a with
      | compress t => exact .inr (runCompress_settles hs)
      | endGroup =>
          rw [← Except.ok.inj (show Except.ok (Machine.endGroup cfg m) = .ok m' from hs)]
          exact endGroup_settles hsize
      | listen comm d =>
          have hs : (if d < cfg.root then startListenThread cfg m d comm else .error .notEnabled) =
              .ok m' := hs
          split at hs
          · rename_i hd
            exact .inr (startListenThread_settles hd hs)
          · cases hs
  | peer d a =>
      have hs : (if d < cfg.root then stepPeer cfg m d a else .error .notEnabled) = .ok m' := hs
      split at hs
      · rename_i hd
        cases a with
        | sendSignal i => exact .inr (sendSignalToRoot_settles hd hs)
        | nonRootNccl ready now => exact .inr (runNonRootNcclLoopOnce_settles h hd hs)
        | copyListen => exact .inr (runNonRootCopyListenLoopOnce_settles hd hs)
      · cases hs

end Settles

/-! ### A machine comes to an end of its work

The rule for measures that fall is in `Lib/Drain.lean`; the measure, and that something can be
done, are what it is given.
-/

section Drain

variable {cfg : Config} {m : Machine} {synchronized : Synchronized}

/-- What goes on is a step of a run. -/
theorem Runs.works (h : Runs cfg m) {a : Act} {m' : Machine}
    (hs : Works cfg synchronized m a m') : Runs cfg m' := by
  refine Reachable.next h (a := a) ⟨?_, hs.2.2⟩
  obtain ⟨hgo, -⟩ := hs
  cases a with
  | device d a =>
      cases a with
      | enqueueTensor _ _ | addNext _ => exact absurd hgo id
      | getTask _ _ _ | finish _ _ | syncNccl _ | complete _ _ => trivial
  | root _ => trivial
  | peer _ _ => trivial

/-- A run that goes on from a machine, with no more tasks than it had begun. -/
def GoesOnFrom (cfg : Config) (m m' : Machine) : Prop :=
  Runs cfg m' ∧ ∀ d k, begunCount m'.log d k = begunCount m.log d k

theorem drains (hcompletes : synchronized.Completes cfg) (hplain : cfg.Plain)
    (hsize : 2 ≤ cfg.localSize) (htrace : cfg.isTrace = false)
    (hbytes : cfg.partitionBytes < 2 ^ 31)
    (hcredit : ∀ c ∈ cfg.schedulingCredit, 0 ≤ c ∧ c < 2 ^ 31) (hlevel : m.Level cfg) :
    Drains (Works cfg synchronized) (GoesOnFrom cfg m) (Through cfg) (work cfg) where
  enabled m' h hleft := by
    refine h.1.exists_enabled hcompletes hplain hsize htrace hbytes hcredit (fun k d hd => ?_) hleft
    rw [h.2, h.2]
    exact hlevel k d hd
  step m' a m'' h hs :=
    (works_settles hsize (h.1.invariant hsize).1 hs).imp_right And.left

theorem GoesOnFrom.works (hsize : 2 ≤ cfg.localSize) {m' m'' : Machine} {a : Act}
    (h : GoesOnFrom cfg m m') (hs : Works cfg synchronized m' a m'') : GoesOnFrom cfg m m'' := by
  refine ⟨h.1.works hs, fun d k => ?_⟩
  rcases works_settles hsize (h.1.invariant hsize).1 hs with rfl | hsettles
  · exact h.2 d k
  · exact (hsettles.2 d k).trans (h.2 d k)

/-- A device that is through has taken a key for every stage, and finished it, as often as begun. -/
theorem Runs.counts_of_through (hsize : 2 ≤ cfg.localSize) (h : Runs cfg m) (hdone : m.Through cfg)
    (k : ℕ) {d : ℕ} (hd : d ≤ cfg.root) {op : QueueType} (hop : op ∈ stagesFor cfg.root d) :
    gotCount m.log d op k = begunCount m.log d k ∧
      finishedCount m.log d op k = begunCount m.log d k := by
  have hcounts := (((h.invariant hsize).2 k).counts d hd op hop)
  have hleft : ((m.view cfg k).position d).1 = [] := hdone k d hd
  have howes : KeyState.owes ((m.view cfg k).position d) op = 0 := by
    unfold KeyState.owes
    rw [hleft]
    rfl
  have hawaits : KeyState.awaits ((m.view cfg k).position d) op = 0 := by
    unfold KeyState.awaits
    rw [hleft]
    exact if_neg fun h => List.not_mem_nil h.1
  rw [howes, hawaits] at hcounts
  have hgot : gotCount (m.view cfg k).log d op k = gotCount m.log d op k :=
    List.count_filter (decide_eq_true rfl)
  have hfinished : finishedCount (m.view cfg k).log d op k = finishedCount m.log d op k :=
    List.count_filter (decide_eq_true rfl)
  have hbegun : begunCount (m.view cfg k).log d k = begunCount m.log d k :=
    List.count_filter (decide_eq_true rfl)
  rw [hgot, hfinished, hbegun] at hcounts
  exact hcounts

end Drain

end Machine

end DeepInc.Worker
