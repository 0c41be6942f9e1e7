/-
What a pull is answered with.

Without a compressor `updates->merged` points at the stored buffer, which is also where the next
round is summed up.  A pull is answered by sending from it.  When all pushes of a round were
summed, the buffer holds their sum, and it does so until the first push of the next round is
copied into it.

A worker may push again as soon as it has its answer, and a slow one may not have pulled at that
time.  The fast worker's push is the first of its round; when it is executed, it writes over the
result the slow one is owed, and the slow one is answered with what was pushed for the next
round.  Nothing in the server waits for the slow one: the window of pulls is looked at by pulls
only.

So the answers are right under a condition on the run: no `COPY_FIRST` of a key is executed
while the window of the key is open.  Then every pull is answered with the sum of its round, as
an invariant of the slot of the key.  A run of two workers in which it is not so, and the answer
it gives, is at the end.
-/
import DeepInc.Proofs.Server.Sums

namespace DeepInc.Server

open Outcome Transition

variable {α κ : Type} {cfg : Config} {codec : Codec α κ}

/-- The answer to the `r`-th pull of a worker is the sum of the `r`-th pushes. -/
def CarriesSum [AddCommMonoid α] (job : Job α κ cfg codec) (key : Key) (e : Event α)
    (past : List (Event α)) : Prop :=
  ∀ r, e = .pullResponse r → r.key = key → ∀ j < job.elements key,
    r.snapshot j = job.roundSum key (responses r.sender key past) j

/-- The next round of `key` is not started while its window is open. -/
def World.NoEarlyCopy (key : Key) (x : World α κ) : Move → Prop
  | .execute i => ∀ m ∈ x.server.hand i, m.key = key → m.ops = .copyFirst →
      (x.server.window i key).isPushFinished ≠ some true
  | _ => True

instance (key : Key) (x : World α κ) : (a : Move) → Decidable (x.NoEarlyCopy key a)
  | .execute i => inferInstanceAs (Decidable (∀ m ∈ x.server.hand i, m.key = key →
      m.ops = .copyFirst → (x.server.window i key).isPushFinished ≠ some true))
  | .request _ _ | .pop _ | .deliver _ _ => inferInstanceAs (Decidable True)

namespace Slot

/-- The same, as a slot sees it. -/
def NoEarlyFirst (v : Slot α κ) (a : SlotMove) : Prop :=
  a = .execute → ∀ data len rest, v.pending = .first data len :: rest →
    v.window.isPushFinished ≠ some true

end Slot

/-- What the whole allows, its slots allow. -/
theorem World.NoEarlyCopy.slot {job : Job α κ cfg codec} {key : Key} (x : World α κ) (a : Move)
    (b : SlotMove) (hinv : x.Inv job) (h : x.NoEarlyCopy key a) (hshow : World.Shows x key a b) :
    (x.view key).NoEarlyFirst b := by
  intro hb data len rest hpending
  subst hb
  obtain ⟨i, m, rfl, hm, hk, hops, hwindow⟩ := hinv.hand_of_first hshow hpending
  rw [hwindow]
  exact h m hm hk hops

/-! ### Answering from the stored buffer

The stored buffer is known from the sums of the rounds.  What is added is that the window is
closed once the next round is started, which is the condition on the run, that `merged` points
at the stored buffer, and that the answers so far were right.  The steps are taken one by one;
only an `ALL_RECV` and a pull answer anybody.
-/

namespace Slot

variable [AddCommMonoid α]

/-- A slot whose answers are the sums of their rounds. -/
structure Answering (job : Job α κ cfg codec) (key : Key) (v : Slot α κ) (ws : List ℕ) (k : ℕ) :
    Prop where
  summing : Summing job key v ws k
  /-- once the next round is started the window is closed -/
  closed : 0 < k → v.window.isPushFinished ≠ some true
  merged : ∀ m, v.merged = some m → m.1 = .stored key
  carries : Always (CarriesSum job key) v.log

variable {job : Job α κ cfg codec} {key : Key} {v : Slot α κ} {ws : List ℕ} {k : ℕ}

namespace Answering

theorem of_fresh (h : Fresh key v) (hreq : v.request = []) : Answering job key v [] 0 := by
  refine ⟨.of_fresh h hreq, fun hc => absurd hc (by simp), by simp [h.merged], ?_⟩
  intro e past hp r hr hkey
  subst hr
  exact absurd hkey (h.not_answered (hp.mem List.mem_cons_self))

/-- A push says nothing about answers. -/
theorem pushed (h : Answering job key v ws k) (hrun : Running job key v) {w : ℕ}
    (hfifo : cfg.enableSchedule = false) (hw : w < cfg.numWorkers) (hp : v.phase w = .push)
    {pending : List (Work α)} (ha : Appends cfg v.pending (v.pushWork job key w) pending) :
    Answering job key (serve job key
      ((v.setPhase w .pushWait).pushed cfg.numWorkers key w pending)) (ws ++ [w]) k := by
  refine ⟨h.summing.pushed hrun hfifo hw hp ha, fun hpos => ?_, fun m hm => ?_, ?_⟩
  · rw [serve_pushed]
    exact h.closed hpos
  · rw [serve_pushed] at hm
    exact h.merged m hm
  · rw [serve_pushed]
    have hdata : Always (CarriesSum job key) (.pushResponse key w ::
        .issued key (if v.request = [] then .copyFirst else .sumRecv) :: v.log) :=
      always_cons.mpr ⟨(by rintro r ⟨⟩), always_cons.mpr ⟨(by rintro r ⟨⟩), h.carries⟩⟩
    show Always (CarriesSum job key) (_ ++ _)
    split
    · exact always_cons.mpr ⟨(by rintro r ⟨⟩), hdata⟩
    · exact hdata

/-- The result of the last round is still there while its window is open. -/
theorem response_eq (h : Answering job key v ws k) (hrun : Running job key v) {w : ℕ}
    (hw : w < cfg.numWorkers) (ha : v.Answers w) {m : Ptr α × ℕ} (hm : v.merged = some m) {j : ℕ}
    (hj : j < job.elements key) :
    (v.response key m w).snapshot j = job.roundSum key (responses w key v.log) j := by
  have hopen : v.window.isPushFinished = some true := (present_isPushFinished _).mp ha.1
  have hk : k = 0 := by
    by_contra hne
    exact h.closed (Nat.pos_of_ne_zero hne) hopen
  have hround := hrun.published_of_answers hw ha
  have hread : (v.response key m w).snapshot = v.read (.stored key) := by
    simp only [response, h.merged m hm]
  rw [hread]
  exact (h.summing.last hk _ hround).roundSum hj

/-- A pull that is answered gets the sum of its round. -/
theorem pullNow (h : Answering job key v ws k) (hrun : Running job key v) {w : ℕ}
    (hw : w < cfg.numWorkers) (ha : v.Answers w) {m : Ptr α × ℕ} (hm : v.merged = some m) :
    Answering job key (serve job key
      (((v.setPhase w .pullWait).observe job key (.pullRequest key w)).pullNow
        cfg.numWorkers key m w)) ws k := by
  have hopen : v.window.isPushFinished = some true := (present_isPushFinished _).mp ha.1
  refine ⟨h.summing.congr ?_ ?_ ?_ ?_ ?_, fun hpos => absurd hopen (h.closed hpos), fun m' hm' => ?_,
    ?_⟩
  · rw [serve_pullNow]
  · rw [serve_pullNow]
  · rw [serve_pullNow]
  · rw [serve_pullNow]
    simp [Event.isResult]
  · rw [serve_pullNow]
    simp [Event.isIssue]
  · rw [serve_pullNow] at hm'
    exact h.merged m' hm'
  · rw [serve_pullNow]
    refine always_cons.mpr ⟨fun r hr _ j hj => ?_, always_cons.mpr ⟨(by rintro r ⟨⟩), h.carries⟩⟩
    obtain rfl := Event.pullResponse.inj hr
    have hpast : responses (v.response key m w).sender key (.pullRequest key w :: v.log) =
        responses w key v.log := by
      simp [response, Event.isResponse]
    rw [hpast]
    exact h.response_eq hrun hw ha hm hj

/-- The pulls an `ALL_RECV` answers get the sum of its round. -/
theorem finished (h : Answering job key v ws k) (hrun : Running job key v)
    (hcomp : v.compressor = none) (hN : 0 < cfg.numWorkers) {u : Work α} {rest : List (Work α)}
    (hu : v.pending = u :: rest) (hdone : u.isDone = true) :
    Answering job key (serve job key (({ v with pending := rest }).finished job key)) [] 0 := by
  obtain ⟨-, hholds⟩ := h.summing.due hN hu hdone
  obtain ⟨-, -, -, hall⟩ := hrun.of_due hu hdone
  obtain ⟨win, hserve, -⟩ := hrun.serve_finished hu hdone hN (publish_of_uncompressed hcomp)
  refine ⟨h.summing.finished hrun hcomp hN hu hdone, fun hc => absurd hc (by simp), fun m hm => ?_,
    ?_⟩
  · rw [hserve] at hm
    obtain rfl := Option.some.inj hm
    rfl
  · rw [hserve]
    have hlog : ∀ content len, Always (CarriesSum job key) (.published key content len :: v.log) :=
      fun _ _ => always_cons.mpr ⟨(by rintro r ⟨⟩), h.carries⟩
    refine always_answers (P := CarriesSum job key) (f := Slot.response key _ _)
      (fun _ => ⟨rfl, rfl⟩) hrun.window.present.nodup (hlog _ _)
      fun w hmem past _ _ _ hr _ r hresp _ j hj => ?_
    obtain rfl := Event.pullResponse.inj hresp
    have hw := ((hrun.window.present.waiting w).mp hmem).1
    have hpast : responses w key past = publishedRounds key v.log := by
      rw [hr, ← (hall w hw).1]
      simp [Event.isResponse]
    show v.read (.stored key) j = job.roundSum key (responses w key past) j
    rw [hpast]
    exact hholds.roundSum hj

/-- A pull that is buffered leaves what there is. -/
theorem pullLater (h : Answering job key v ws k) (w : ℕ) (req : KVMeta) :
    Answering job key (serve job key (((v.setPhase w .pullWait).observe job key
      (.pullRequest key w)).pullLater req)) ws k := by
  refine ⟨h.summing.congr rfl rfl rfl ?_ ?_, fun hpos => ?_, h.merged, ?_⟩
  · rw [serve_pullLater]
    simp [Event.isResult]
  · rw [serve_pullLater]
    simp [Event.isIssue]
  · rw [serve_pullLater]
    exact fun hopen => h.closed hpos ((present_isPushFinished _).mp hopen)
  · rw [serve_pullLater]
    exact always_cons.mpr ⟨(by rintro r ⟨⟩), h.carries⟩

/-- The execution of a push, which is admitted: if it is the first of its round, the window is
closed. -/
theorem executed (h : Answering job key v ws k) (hcomp : v.compressor = none)
    (hguard : v.NoEarlyFirst .execute) {u : Work α} {rest : List (Work α)}
    (hu : v.pending = u :: rest) (hdone : u.isDone = false) :
    Answering job key (serve job key (({ v with pending := rest }).executed job key u)) ws
      (k + 1) := by
  obtain ⟨hsumming, hfirst⟩ := h.summing.executed hcomp hu hdone
  have hclosed : v.window.isPushFinished ≠ some true := by
    by_cases hk : k = 0
    · obtain ⟨data, len, rfl⟩ := hfirst hk
      exact hguard rfl data len rest hu
    · exact h.closed (Nat.pos_of_ne_zero hk)
  cases u with
  | done => cases hdone
  | _ => exact ⟨hsumming, fun _ => hclosed, h.merged, h.carries⟩

/-- A delivery changes nothing at the server. -/
theorem deliver (h : Answering job key v ws k) (w : ℕ) (r : Response α) (content : Mem α)
    (round : ℕ → ℕ) : Answering job key
      { (v.observe job key (.delivered r content)).setPhase w .push with round := round } ws k := by
  refine ⟨h.summing.congr rfl rfl rfl ?_ ?_, h.closed, h.merged,
    always_cons.mpr ⟨(by rintro r ⟨⟩), h.carries⟩⟩ <;>
    simp [observe, setPhase, Event.isResult, Event.isIssue]

/-- Every admitted step keeps the answers right. -/
theorem step (h : Answering job key v ws k) (hrun : Running job key v) (hN : 0 < cfg.numWorkers)
    (hfifo : cfg.enableSchedule = false) (hcomp : v.compressor = none) {a : SlotMove}
    {v' : Slot α κ} (hguard : v.NoEarlyFirst a) (hstep : Step job key v a v') :
    ∃ ws' k', Answering job key v' ws' k' := by
  cases hstep with
  | init hw hp hs => exact (hrun.not_initPush hw hp).elim
  | register hw hp => exact (hrun.not_registerPush hw hp).elim
  | push hw hp ha => exact ⟨_, k, h.pushed hrun hfifo hw hp ha⟩
  | @pullLater w req hw hp hreq ha => exact ⟨ws, k, h.pullLater w req⟩
  | pullNow hw hp ha hm => exact ⟨ws, k, h.pullNow hrun hw ha hm⟩
  | @execute u rest hu =>
      cases hdone : u.isDone with
      | true =>
          cases u with
          | done => exact ⟨[], 0, h.finished hrun hcomp hN hu rfl⟩
          | _ => cases hdone
      | false => exact ⟨ws, k + 1, h.executed hcomp hguard hu hdone⟩
  | deliver hp => exact ⟨ws, k, h.deliver _ _ _ _⟩
  | shuffle hs hperm =>
      rw [hfifo] at hs
      cases hs

end Answering

/-- In every admitted run the answers are right. -/
theorem Running.answering (hN : 0 < cfg.numWorkers) (hfifo : cfg.enableSchedule = false)
    (hc : job.compressed key = false)
    (hr : Reachable (· = Slot.init) (Guarded NoEarlyFirst (Step job key)) v)
    (hrun : Running job key v) : ∃ ws k, Answering job key v ws k := by
  refine running_invariant (P := fun v => ∃ ws k, Answering job key v ws k) hN
    (fun v _ hfresh hreq => ⟨[], 0, .of_fresh hfresh hreq⟩)
    (fun v a v' hrun hguard hstep hv => ?_) hr hrun
  obtain ⟨ws, k, h⟩ := hv
  exact h.step hrun hN hfifo (hrun.compressor_eq_none hc) hguard hstep

end Slot

/-! ### The answers of a run -/

variable [AddCommMonoid α]

/--
**Answers carry the sum of their round, as long as the next round waits for them.**  In
a run in which no `COPY_FIRST` of a key is executed while the window of the key is open,
the answer to every pull of the key is the sum of its round.
-/
theorem answers_carry_sum (job : Job α κ cfg codec) (hcfg : cfg.RunsSync)
    (hfifo : cfg.enableSchedule = false) {key : Key} (hk : key ∈ job.keys)
    (hc : job.compressed key = false) {x : World α κ}
    (hx : Reachable (· = World.init cfg)
      (Guarded (World.NoEarlyCopy key) (World.Step job)) x) :
    ∀ e past, (e :: past) <:+ x.log → CarriesSum job key e past := by
  intro e past hp r hr hkey j hj
  have hinv := World.inv_of_reached hcfg hx.of_guarded
  have hlog : (x.view key).log = x.log.filter fun e => e.key = key := rfl
  have hekey : e.key = key := by
    rw [hr]
    exact hkey
  have hmem : e ∈ (x.view key).log := by
    rw [hlog]
    exact List.mem_filter.mpr ⟨hp.mem List.mem_cons_self, decide_eq_true hekey⟩
  have hrun : Slot.Running job key (x.view key) := by
    cases hinv.slots key hk with
    | running h => exact h
    | init h _ _ => exact absurd hkey (h.fresh.not_answered (hr ▸ hmem))
    | register h _ _ => exact absurd hkey (h.fresh.not_answered (hr ▸ hmem))
  obtain ⟨ws, k, h⟩ := hrun.answering hcfg.numWorkers hfifo hc
    (World.slot_reachable hcfg hk Slot.NoEarlyFirst World.NoEarlyCopy.slot hx)
  have hcarries := Always.of_filter (by rw [← hlog]; exact h.carries) hp (decide_eq_true hekey)
  simpa using hcarries r hr hkey j hj

/-- In the second round of two workers, one of whom pulled late in the first, the pull of the
other is answered with 11 + 12. -/
theorem answers_carry_sum_two : ∃ (x : World ℤ Unit) (r : Response ℤ) (past : List (Event ℤ)),
    Event.pullResponse r :: past <:+ x.log ∧ r.snapshot 0 = (singleKey 2).roundSum 0 1 0 ∧
      (singleKey 2).roundSum 0 1 0 = 23 := by
  have hrun : ((World.init (defaultConfig 2)).after (singleKey 2)
      (fun x a => decide (x.NoEarlyCopy 0 a)) [.request 0 0, .request 1 0, .request 0 0,
        .request 1 0, .pop 0, .execute 0, .pop 0, .execute 0, .pop 0, .execute 0,
        .request 0 0, .deliver 0 0, .request 0 0, .request 1 0, .deliver 1 0, .request 1 0,
        .pop 0, .execute 0, .pop 0, .execute 0, .pop 0, .execute 0, .request 1 0]).bind
        (fun x => (lastAnswer x.log).map fun (r, past) =>
          (r.key, responses r.sender 0 past)) = some (0, 1) := by
    decide +kernel
  obtain ⟨x, hx, hlog⟩ := Option.bind_eq_some_iff.mp hrun
  have hreached := World.reachable_after (fun _ _ h => of_decide_eq_true h) (.start rfl) hx
  obtain ⟨⟨r, past⟩, hlast, hpair⟩ := Option.map_eq_some_iff.mp hlog
  obtain ⟨hkey, hresp⟩ := Prod.mk.inj hpair
  have hp : Event.pullResponse r :: past <:+ x.log := lastAnswer_eq_some hlast ▸ List.suffix_refl _
  have := answers_carry_sum (singleKey 2) ⟨rfl, rfl, by decide, by decide⟩ rfl
    (show (0 : Key) ∈ (singleKey 2).keys by simp [singleKey]) rfl hreached _ past hp r rfl hkey 0
    (by decide)
  exact ⟨x, r, past, hp, by rwa [hresp] at this, by decide +kernel⟩

/--
Worker 0 has its answer and pushes again; the `COPY_FIRST` of that push is executed
before worker 1 pulls, who is answered with it.
-/
theorem next_copy_overtakes_pull :
    ¬∀ (cfg : Config) (job : Job ℤ Unit cfg noCompressor) (key : Key) (x : World ℤ Unit),
      cfg.RunsSync → cfg.enableSchedule = false → key ∈ job.keys → job.compressed key = false →
        World.Reached job x → ∀ e past, (e :: past) <:+ x.log → CarriesSum job key e past := by
  intro h
  have hrun : ((World.init (defaultConfig 2)).after (singleKey 2) (fun _ _ => true)
      [.request 0 0, .request 1 0, .request 0 0, .request 1 0, .pop 0, .execute 0, .pop 0,
        .execute 0, .pop 0, .execute 0, .request 0 0, .deliver 0 0, .request 0 0, .pop 0,
        .execute 0, .request 1 0]).bind (fun x => (lastAnswer x.log).map fun (r, past) =>
          (r.key, r.snapshot 0, responses r.sender 0 past)) = some (0, 11, 0) := by
    decide +kernel
  obtain ⟨x, hx, hlog⟩ := Option.bind_eq_some_iff.mp hrun
  obtain ⟨⟨r, past⟩, hlast, hpair⟩ := Option.map_eq_some_iff.mp hlog
  obtain ⟨hkey, hrest⟩ := Prod.mk.inj hpair
  obtain ⟨hsnap, hresp⟩ := Prod.mk.inj hrest
  have := h _ (singleKey 2) 0 x ⟨rfl, rfl, by decide, by decide⟩ rfl (by simp [singleKey]) rfl
    (World.reached_after hx) _ past (lastAnswer_eq_some hlast ▸ List.suffix_refl _) r rfl hkey 0
    (by decide)
  rw [hsnap, hresp] at this
  exact absurd this (by decide)

end DeepInc.Server
