/-
What a pull brings to its worker.

An answer is a pointer.  `SendPullResponse` gives `ps-lite` the stored buffer without a copy, and
what the worker gets is what the pointer reads when the answer is delivered, which may be long
after it was sent.  `Proofs/Server/Answers.lean` is about the moment an answer is sent: there it
is the sum of its round as long as no `COPY_FIRST` is executed while the window of the key is
open.  That is not enough for the delivery.  The window is closed as soon as the last pull is
answered, and the next round may then write to the buffer that the answers still point to.

So more is asked for here: no `COPY_FIRST` of the key is executed while an answer of it is on its
way either.  It is the condition under which compressed keys are answered right, in
`Proofs/Server/Results.lean`, and the argument is the one made there.  While an answer is on its
way, the round in progress has not begun to be summed up, so that the stored buffer holds the sum
of the last round; and the last round is the one the worker is waiting for, since it has not
pushed since.
-/
import DeepInc.Proofs.Server.Answers
import DeepInc.Proofs.Server.Results

namespace DeepInc.Server

open Outcome Transition

variable {α κ : Type} {cfg : Config} {codec : Codec α κ}

/-- The `r`-th delivery to a worker brings the sum of the `r`-th pushes. -/
def DeliversSum [AddCommMonoid α] (job : Job α κ cfg codec) (key : Key) (e : Event α)
    (past : List (Event α)) : Prop :=
  ∀ r content, e = .delivered r content → r.key = key → ∀ j < job.elements key,
    content j = job.roundSum key (deliveries r.sender key past) j

/-! ### Delivering from the stored buffer

The invariant is that of the answers with one thing more: while an answer of the key is on its
way, nothing of the next round is summed up.  A delivery then reads what `ALL_RECV` found.
-/

namespace Slot

theorem NoEarlyReceive.noEarlyFirst {v : Slot α κ} {a : SlotMove} (h : v.NoEarlyReceive cfg a) :
    v.NoEarlyFirst a :=
  fun ha data len rest hu => (h ha data len rest hu).1

variable [AddCommMonoid α] {job : Job α κ cfg codec} {key : Key}

/-- A slot whose deliveries bring the sums of their rounds. -/
structure Delivering (job : Job α κ cfg codec) (key : Key) (v : Slot α κ) (ws : List ℕ) (k : ℕ) :
    Prop where
  answering : Answering job key v ws k
  /-- once the next round is started all answers are delivered -/
  delivered : 0 < k → ∀ w < cfg.numWorkers, (v.phase w).isAnswered = false
  held : ∀ w r, v.phase w = .answered r → r.ptr = .stored key
  brings : Always (DeliversSum job key) v.log

variable {v : Slot α κ} {ws : List ℕ} {k : ℕ}

theorem deliversSum_other {e : Event α} (he : ∀ r content, e ≠ .delivered r content)
    (past : List (Event α)) : DeliversSum job key e past :=
  fun r content hr => absurd hr (he r content)

/-- Before the rounds nothing is delivered. -/
theorem Fresh.deliversSum (h : Fresh key v) : Always (DeliversSum job key) v.log := by
  intro e past hp r content hr hkey
  have hpos : 0 < DeepInc.Server.deliveries r.sender key v.log :=
    List.countP_pos_iff.mpr ⟨e, hp.mem List.mem_cons_self, by simp [hr, Event.isDelivery, hkey]⟩
  rw [h.deliveries] at hpos
  cases hpos

namespace Delivering

theorem of_fresh (h : Fresh key v) (hrun : Running job key v) (hreq : v.request = []) :
    Delivering job key v [] 0 := by
  refine ⟨.of_fresh h hreq, fun hpos => absurd hpos (by simp), fun w r hp => ?_, h.deliversSum⟩
  have hans := (hrun.workers w (hrun.lt_of_phase hp (by simp))).answered
  rw [h.responses, hp, h.round] at hans
  simp [Phase.held] at hans

theorem pushed (h : Delivering job key v ws k) (hrun : Running job key v) {w : ℕ}
    (hfifo : cfg.enableSchedule = false) (hw : w < cfg.numWorkers) (hp : v.phase w = .push)
    {pending : List (Work α)} (ha : Appends cfg v.pending (v.pushWork job key w) pending) :
    Delivering job key (serve job key
      ((v.setPhase w .pushWait).pushed cfg.numWorkers key w pending)) (ws ++ [w]) k := by
  refine ⟨h.answering.pushed hrun hfifo hw hp ha, fun hpos u hu => ?_, fun u r hr => ?_, ?_⟩
  · rw [serve_pushed]
    by_cases huw : u = w
    · simp [huw, Phase.isAnswered]
    · simpa [huw] using h.delivered hpos u hu
  · rw [serve_pushed] at hr
    by_cases huw : u = w
    · simp [huw] at hr
    · exact h.held u r (by simpa [huw] using hr)
  · rw [serve_pushed]
    have hdata : Always (DeliversSum job key) (.pushResponse key w ::
        .issued key (if v.request = [] then .copyFirst else .sumRecv) :: v.log) :=
      always_cons.mpr ⟨deliversSum_other (by simp) _,
        always_cons.mpr ⟨deliversSum_other (by simp) _, h.brings⟩⟩
    show Always (DeliversSum job key) (_ ++ _)
    split
    · exact always_cons.mpr ⟨deliversSum_other (by simp) _, hdata⟩
    · exact hdata

theorem pullLater (h : Delivering job key v ws k) (w : ℕ) (req : KVMeta) :
    Delivering job key (serve job key (((v.setPhase w .pullWait).observe job key
      (.pullRequest key w)).pullLater req)) ws k := by
  refine ⟨h.answering.pullLater w req, fun hpos u hu => ?_, fun u r hr => ?_, ?_⟩
  · rw [serve_pullLater]
    by_cases huw : u = w
    · simp [huw, Phase.isAnswered]
    · simpa [huw] using h.delivered hpos u hu
  · rw [serve_pullLater] at hr
    by_cases huw : u = w
    · simp [huw] at hr
    · exact h.held u r (by simpa [huw] using hr)
  · rw [serve_pullLater]
    exact always_cons.mpr ⟨deliversSum_other (by simp) _, h.brings⟩

/-- A pull that is answered is given the stored buffer. -/
theorem pullNow (h : Delivering job key v ws k) (hrun : Running job key v) {w : ℕ}
    (hw : w < cfg.numWorkers) (ha : v.Answers w) {m : Ptr α × ℕ} (hm : v.merged = some m) :
    Delivering job key (serve job key
      (((v.setPhase w .pullWait).observe job key (.pullRequest key w)).pullNow
        cfg.numWorkers key m w)) ws k := by
  have hopen : v.window.isPushFinished = some true := (present_isPushFinished _).mp ha.1
  refine ⟨h.answering.pullNow hrun hw ha hm, fun hpos => absurd hopen (h.answering.closed hpos),
    fun u r hr => ?_, ?_⟩
  · rw [serve_pullNow] at hr
    by_cases huw : u = w
    · obtain rfl : v.response key m w = r := by simpa [huw] using hr
      exact h.answering.merged m hm
    · exact h.held u r (by simpa [huw] using hr)
  · rw [serve_pullNow]
    exact always_cons.mpr ⟨deliversSum_other (by simp) _,
      always_cons.mpr ⟨deliversSum_other (by simp) _, h.brings⟩⟩

/-- The first push of the next round is only summed up when nothing is on its way. -/
theorem executed (h : Delivering job key v ws k) (hcomp : v.compressor = none)
    (hguard : v.NoEarlyReceive cfg .execute) {u : Work α} {rest : List (Work α)}
    (hu : v.pending = u :: rest) (hdone : u.isDone = false) :
    Delivering job key (serve job key (({ v with pending := rest }).executed job key u)) ws
      (k + 1) := by
  have hfirst := (h.answering.summing.executed hcomp hu hdone).2
  have hdelivered : ∀ w < cfg.numWorkers, (v.phase w).isAnswered = false := by
    by_cases hk : k = 0
    · obtain ⟨data, len, rfl⟩ := hfirst hk
      exact (hguard rfl data len rest hu).2
    · exact h.delivered (Nat.pos_of_ne_zero hk)
  have hanswering := h.answering.executed hcomp hguard.noEarlyFirst hu hdone
  cases u with
  | done => cases hdone
  | _ => exact ⟨hanswering, fun _ => hdelivered, h.held, h.brings⟩

/-- The pulls an `ALL_RECV` answers are given the stored buffer. -/
theorem finished (h : Delivering job key v ws k) (hrun : Running job key v)
    (hcomp : v.compressor = none) (hN : 0 < cfg.numWorkers) {u : Work α} {rest : List (Work α)}
    (hu : v.pending = u :: rest) (hdone : u.isDone = true) :
    Delivering job key (serve job key (({ v with pending := rest }).finished job key)) [] 0 := by
  obtain ⟨win, hserve, -⟩ := hrun.serve_finished hu hdone hN (publish_of_uncompressed hcomp)
  refine ⟨h.answering.finished hrun hcomp hN hu hdone, fun hpos => absurd hpos (by simp),
    fun w r hr => ?_, ?_⟩
  · rw [hserve] at hr
    obtain rfl := hrun.answered_of_allRecv hu hdone hr
    rfl
  · rw [hserve]
    exact always_answers (P := DeliversSum job key) (f := Slot.response key _ _)
      (fun _ => ⟨rfl, rfl⟩) hrun.window.present.nodup
      (always_cons.mpr ⟨deliversSum_other (by simp) _, h.brings⟩)
      fun w _ past _ _ _ _ _ => deliversSum_other (by simp) _

/-- A delivery finds the sum of the last round, which is the round of its worker. -/
theorem deliver (h : Delivering job key v ws k) (hrun : Running job key v) {w : ℕ}
    {r : Response α} (hp : v.phase w = .answered r) :
    Delivering job key { (v.observe job key (.delivered r (v.read r.ptr))).setPhase w .push with
      round := Function.update v.round w (v.round w + 1) } ws k := by
  have hw := hrun.lt_of_phase hp (by simp)
  obtain ⟨hsender, -, -⟩ := hrun.held w r hp
  have hptr := h.held w r hp
  have hk : k = 0 := by
    by_contra hne
    have := h.delivered (Nat.pos_of_ne_zero hne) w hw
    simp [hp, Phase.isAnswered] at this
  have hround := hrun.published_of_answered hp
  refine ⟨h.answering.deliver _ _ _ _, fun hpos => absurd hpos (by omega), fun u r' hr' => ?_, ?_⟩
  · by_cases huw : u = w
    · simp [huw, setPhase] at hr'
    · exact h.held u r' (by simpa [huw, setPhase, observe] using hr')
  · simp only [setPhase_log, observe_log]
    refine always_cons.mpr ⟨fun r' content hr' _ j hj => ?_, h.brings⟩
    obtain ⟨rfl, rfl⟩ := Event.delivered.inj hr'
    rw [hsender, hptr]
    exact (h.answering.summing.last hk _ hround).roundSum hj

/-- Every admitted step keeps the deliveries right. -/
theorem step (h : Delivering job key v ws k) (hrun : Running job key v) (hN : 0 < cfg.numWorkers)
    (hfifo : cfg.enableSchedule = false) (hcomp : v.compressor = none) {a : SlotMove}
    {v' : Slot α κ} (hguard : v.NoEarlyReceive cfg a) (hstep : Step job key v a v') :
    ∃ ws' k', Delivering job key v' ws' k' := by
  cases hstep with
  | init hw hp hs => exact (hrun.not_initPush hw hp).elim
  | register hw hp => exact (hrun.not_registerPush hw hp).elim
  | push hw hp ha => exact ⟨_, k, h.pushed hrun hfifo hw hp ha⟩
  | @pullLater w req hw hp hreq ha => exact ⟨ws, k, h.pullLater w req⟩
  | pullNow hw hp ha hm => exact ⟨ws, k, h.pullNow hrun hw ha hm⟩
  | @execute u rest hu =>
      cases hdone : u.isDone with
      | true =>
          cases u with
          | done => exact ⟨[], 0, h.finished hrun hcomp hN hu rfl⟩
          | _ => cases hdone
      | false => exact ⟨ws, k + 1, h.executed hcomp hguard hu hdone⟩
  | deliver hp => exact ⟨ws, k, h.deliver hrun hp⟩
  | shuffle hs hperm =>
      rw [hfifo] at hs
      cases hs

end Delivering

/-- In every admitted run the deliveries are right. -/
theorem Running.delivering (hN : 0 < cfg.numWorkers) (hfifo : cfg.enableSchedule = false)
    (hc : job.compressed key = false)
    (hr : Reachable (· = Slot.init) (Guarded (NoEarlyReceive cfg) (Step job key)) v)
    (hrun : Running job key v) : ∃ ws k, Delivering job key v ws k := by
  refine running_invariant (P := fun v => ∃ ws k, Delivering job key v ws k) hN
    (fun v hrun hfresh hreq => ⟨[], 0, .of_fresh hfresh hrun hreq⟩)
    (fun v a v' hrun hguard hstep hv => ?_) hr hrun
  obtain ⟨ws, k, h⟩ := hv
  exact h.step hrun hN hfifo (hrun.compressor_eq_none hc) hguard hstep

end Slot

/-! ### The deliveries of a run -/

variable [AddCommMonoid α]

/--
**What a worker gets is the sum of its round, as long as the next round waits for the answers.**
In a run in which no `COPY_FIRST` of an uncompressed key is executed while the window of the key
is open or an answer of it is on its way, the bytes of the `r`-th delivery to a worker are the
sum of the `r`-th pushes.
-/
theorem deliveries_bring_sum (job : Job α κ cfg codec) (hcfg : cfg.RunsSync)
    (hfifo : cfg.enableSchedule = false) {key : Key} (hk : key ∈ job.keys)
    (hc : job.compressed key = false) {x : World α κ}
    (hx : Reachable (· = World.init cfg) (Guarded (World.NoEarlyStart cfg key) (World.Step job)) x) :
    ∀ e past, (e :: past) <:+ x.log → DeliversSum job key e past := by
  intro e past hp r content hr hkey j hj
  have hlog : (x.view key).log = x.log.filter fun e => e.key = key := rfl
  have hbrings : Always (DeliversSum job key) (x.view key).log := by
    cases (World.inv_of_reached hcfg hx.of_guarded).slots key hk with
    | running hrun =>
        obtain ⟨ws, k, h⟩ := hrun.delivering hcfg.numWorkers hfifo hc
          (World.slot_reachable hcfg hk (Slot.NoEarlyReceive cfg) World.NoEarlyStart.slot hx)
        exact h.brings
    | init h _ _ => exact h.fresh.deliversSum
    | register h _ _ => exact h.fresh.deliversSum
  have hekey : e.key = key := by
    rw [hr]
    exact hkey
  have hbring := Always.of_filter (by rw [← hlog]; exact hbrings) hp (decide_eq_true hekey)
  simpa using hbring r content hr hkey j hj

end DeepInc.Server
