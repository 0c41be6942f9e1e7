/-
What a pull of a compressed key carries.

The result of a round is compressed into the `_buf` of the key's compressor, and pull responses
point there until they are delivered.  The pushes of the next round are decompressed into the
same `_buf`, and the result of the next round is compressed into it.

So there are two things that can go wrong with an answer.  It may be sent too late, when the
buffer holds something of the next round already; this is what happens to uncompressed keys too.
And it may be delivered too late: the answer was right when it was sent, and the buffer was
written while it was on its way, since `ps-lite` does not copy it.

As long as the first push of the next round waits until the window of the key is closed and its
answers are delivered, every answer carries what `Compress` returned for its round, when it is
sent and when it is delivered.  The results themselves are kept in the record of the run, so
that an answer can be compared with the result of its round.

A run of two workers in which the buffer is written too early is at the end.
-/
import DeepInc.Proofs.Server.Sums
import DeepInc.Server.Codecs
import Mathlib.Algebra.Field.Rat
import Mathlib.Algebra.Order.Ring.Unbundled.Rat

namespace DeepInc.Server

open Outcome Transition

variable {α κ : Type} {cfg : Config} {codec : Codec α κ}

/--
The answer to the `r`-th pull of a worker carries the result of round `r`, when it is
sent and when it is delivered.
-/
def CarriesResult (key : Key) (e : Event α) (past : List (Event α)) : Prop :=
  (∀ r, e = .pullResponse r → r.key = key →
    (results key past)[responses r.sender key past]? = some (r.snapshot, r.len)) ∧
  ∀ r content, e = .delivered r content → r.key = key →
    (results key past)[deliveries r.sender key past]? = some (content, r.len)

/-- The worker has an answer that is still on its way. -/
def Phase.isAnswered : Phase α → Bool
  | .answered _ => true
  | _ => false

/--
The next round of `key` is not started while its window is open or an answer of the last
one is on its way.
-/
def World.NoEarlyStart (cfg : Config) (key : Key) (x : World α κ) : Move → Prop
  | .execute i => ∀ m ∈ x.server.hand i, m.key = key → m.ops = .copyFirst →
      (x.server.window i key).isPushFinished ≠ some true ∧
        ∀ w < cfg.numWorkers, (x.phase w key).isAnswered = false
  | _ => True

instance (key : Key) (x : World α κ) : (a : Move) → Decidable (x.NoEarlyStart cfg key a)
  | .execute i => inferInstanceAs (Decidable (∀ m ∈ x.server.hand i, m.key = key →
      m.ops = .copyFirst → (x.server.window i key).isPushFinished ≠ some true ∧
        ∀ w < cfg.numWorkers, (x.phase w key).isAnswered = false))
  | .request _ _ | .pop _ | .deliver _ _ => inferInstanceAs (Decidable True)

namespace Slot

/-- The same, as a slot sees it. -/
def NoEarlyReceive (cfg : Config) (v : Slot α κ) (a : SlotMove) : Prop :=
  a = .execute → ∀ data len rest, v.pending = .first data len :: rest →
    v.window.isPushFinished ≠ some true ∧ ∀ w < cfg.numWorkers, (v.phase w).isAnswered = false

end Slot

/-- What the whole allows, its slots allow. -/
theorem World.NoEarlyStart.slot {job : Job α κ cfg codec} {key : Key} (x : World α κ)
    (a : Move) (b : SlotMove) (hinv : x.Inv job) (h : x.NoEarlyStart cfg key a)
    (hshow : World.Shows x key a b) : (x.view key).NoEarlyReceive cfg b := by
  intro hb data len rest hpending
  subst hb
  obtain ⟨i, m, rfl, hm, hk, hops, hwindow⟩ := hinv.hand_of_first hshow hpending
  rw [hwindow]
  exact h m hm hk hops

/-! ### The results of a record

The `r`-th result of a record is the one of round `r`, since every `ALL_RECV` publishes one.
-/

section Results

variable {key : Key} (log : List (Event α))

theorem results_cons (e : Event α) :
    results key (e :: log) = results key log ++ (e.result key).toList := by
  unfold results
  rw [List.reverse_cons, List.filterMap_append]
  cases h : e.result key <;> simp [h]

theorem length_results : (results key log).length = publishedRounds key log := by
  induction log with
  | nil => rfl
  | cons e log ih =>
      rw [results_cons, List.length_append, ih, publishedRounds_cons]
      cases e with
      | published k content len =>
          by_cases hk : k = key <;> simp [Event.result, Event.isResult, hk]
      | _ => simp [Event.result, Event.isResult]

/-- The result of the last round is at the place of the worker's next answer. -/
theorem getElem?_results_of_last {p : Mem α × ℕ} (h : (results key log).getLast? = some p) {n : ℕ}
    (hn : publishedRounds key log = n + 1) : (results key log)[n]? = some p := by
  rw [List.getLast?_eq_getElem?, length_results, hn] at h
  exact h

@[simp] theorem results_ofKey :
    results key (log.filter fun e => e.key = key) = results key log := by
  induction log with
  | nil => rfl
  | cons e log ih =>
      rw [results_cons, List.filter_cons]
      by_cases hkey : e.key = key
      · rw [if_pos (decide_eq_true hkey), results_cons, ih]
      · have hnone : e.result key = none := by
          cases e with
          | published k content len => exact if_neg hkey
          | _ => rfl
        rw [if_neg (by simpa using hkey), ih, hnone]
        simp

theorem carriesResult_other {e : Event α} (hp : ∀ r, e ≠ .pullResponse r)
    (hd : ∀ r content, e ≠ .delivered r content) : CarriesResult key e log :=
  ⟨fun r he => absurd he (hp r), fun r content he => absurd he (hd r content)⟩

end Results

/-! ### Answering from the buffer of the compressor

The invariant ties the buffer to the record: while the window is open or an answer is on its
way, the buffer holds the last result.  Only an execution writes to it, and the condition on the
run says when that may be.
-/

namespace Slot

/-- Before the rounds nothing is answered or delivered. -/
theorem Fresh.carriesResult {key : Key} {v : Slot α κ} (h : Fresh key v) :
    Always (CarriesResult key) v.log := by
  intro e past hp
  refine ⟨fun r hr hkey => ?_, fun r content hr hkey => ?_⟩
  · subst hr
    exact absurd hkey (h.not_answered (hp.mem List.mem_cons_self))
  · have hpos : 0 < DeepInc.Server.deliveries r.sender key v.log :=
      List.countP_pos_iff.mpr ⟨e, hp.mem List.mem_cons_self, by simp [hr, Event.isDelivery, hkey]⟩
    rw [h.deliveries] at hpos
    cases hpos

/-- The round of an answer that is on its way is the last one. -/
theorem Running.published_of_answered {job : Job α κ cfg codec} {key : Key} {v : Slot α κ}
    (hrun : Running job key v) {w : ℕ} {r : Response α} (hp : v.phase w = .answered r) :
    publishedRounds key v.log = DeepInc.Server.deliveries w key v.log + 1 := by
  have hwork := hrun.workers w (hrun.lt_of_phase hp (by simp))
  have hans := hwork.answered
  have hdel := hwork.delivered
  have hlead := hwork.lead
  have hpushed := hwork.pushed
  have hle := hrun.published_le
  rw [hp] at hans hpushed
  simp only [Phase.held, Phase.ahead] at hans hpushed
  split at hpushed <;> omega

variable [Zero α]

/-- A slot whose answers are the results of their rounds. -/
structure Publishing (job : Job α κ cfg codec) (key : Key) (v : Slot α κ) (ws : List ℕ) (k : ℕ) :
    Prop where
  progress : InProgress job key v ws k
  /-- once the next round is started the window is closed, and all answers are delivered -/
  closed : 0 < k → v.window.isPushFinished ≠ some true ∧
    ∀ w < cfg.numWorkers, (v.phase w).isAnswered = false
  merged : ∀ m, v.merged = some m → m.1 = .buf key
  /-- until then the buffer holds the last result -/
  last : k = 0 → ∀ m, v.merged = some m →
    (results key v.log).getLast? = some (v.read (.buf key), m.2)
  held : ∀ w r, v.phase w = .answered r → r.ptr = .buf key ∧ v.merged.map (·.2) = some r.len
  carries : Always (CarriesResult key) v.log

variable {job : Job α κ cfg codec} {key : Key} {v : Slot α κ} {ws : List ℕ} {k : ℕ}

namespace Publishing

theorem of_fresh (h : Fresh key v) (hrun : Running job key v) (hreq : v.request = []) :
    Publishing job key v [] 0 := by
  refine ⟨.of_fresh h hreq, fun hpos => absurd hpos (by simp), by simp [h.merged],
    by simp [h.merged], fun w r hp => ?_, h.carriesResult⟩
  · have hw := hrun.lt_of_phase hp (by simp)
    have hans := (hrun.workers w hw).answered
    rw [h.responses, hp, h.round] at hans
    simp [Phase.held] at hans

/-- A push says nothing about answers. -/
theorem pushed (h : Publishing job key v ws k) (hrun : Running job key v) {w : ℕ}
    (hfifo : cfg.enableSchedule = false) (hw : w < cfg.numWorkers) (hp : v.phase w = .push)
    {pending : List (Work α)} (ha : Appends cfg v.pending (v.pushWork job key w) pending) :
    Publishing job key (serve job key
      ((v.setPhase w .pushWait).pushed cfg.numWorkers key w pending)) (ws ++ [w]) k := by
  have hresults : results key (serve job key
      ((v.setPhase w .pushWait).pushed cfg.numWorkers key w pending)).log = results key v.log := by
    rw [serve_pushed]
    simp only
    split <;> simp [results_cons, Event.result]
  refine ⟨h.progress.pushed hrun hfifo hw hp ha, fun hpos => ?_, fun m hm => ?_, fun hk m hm => ?_,
    fun u r hr => ?_, ?_⟩
  · obtain ⟨hopen, hanswered⟩ := h.closed hpos
    rw [serve_pushed]
    refine ⟨hopen, fun u hu => ?_⟩
    by_cases huw : u = w
    · simp [huw, Phase.isAnswered]
    · simpa [huw] using hanswered u hu
  · rw [serve_pushed] at hm
    exact h.merged m hm
  · rw [hresults]
    rw [serve_pushed] at hm ⊢
    exact h.last hk m hm
  · rw [serve_pushed] at hr ⊢
    by_cases huw : u = w
    · simp [huw] at hr
    · exact h.held u r (by simpa [huw] using hr)
  · rw [serve_pushed]
    have hother : ∀ {e : Event α} {log : List (Event α)}, (∀ r, e ≠ .pullResponse r) →
        (∀ r content, e ≠ .delivered r content) → Always (CarriesResult key) log →
        Always (CarriesResult key) (e :: log) :=
      fun hp hd hlog => always_cons.mpr ⟨carriesResult_other _ hp hd, hlog⟩
    have hdata := hother (e := .pushResponse key w) (by simp) (by simp)
      (hother (e := .issued key (if v.request = [] then .copyFirst else .sumRecv)) (by simp)
        (by simp) h.carries)
    show Always (CarriesResult key) (_ ++ _)
    split
    · exact hother (by simp) (by simp) hdata
    · exact hdata

/-- A pull that is answered gets the result of its round. -/
theorem pullNow (h : Publishing job key v ws k) (hrun : Running job key v) {w : ℕ}
    (hw : w < cfg.numWorkers) (ha : v.Answers w) {m : Ptr α × ℕ} (hm : v.merged = some m) :
    Publishing job key (serve job key
      (((v.setPhase w .pullWait).observe job key (.pullRequest key w)).pullNow
        cfg.numWorkers key m w)) ws k := by
  have hopen : v.window.isPushFinished = some true := (present_isPushFinished _).mp ha.1
  have hk : k = 0 := by
    by_contra hne
    exact (h.closed (Nat.pos_of_ne_zero hne)).1 hopen
  have hptr := h.merged m hm
  have hlast := h.last hk m hm
  refine ⟨h.progress.congr ?_ ?_ ?_ ?_, fun hpos => absurd hopen (h.closed hpos).1, fun m' hm' => ?_,
    fun _ m' hm' => ?_, fun u r hr => ?_, ?_⟩
  · rw [serve_pullNow]
  · rw [serve_pullNow]
  · rw [serve_pullNow]
    simp [Event.isResult]
  · rw [serve_pullNow]
    simp [Event.isIssue]
  · rw [serve_pullNow] at hm'
    exact h.merged m' hm'
  · rw [serve_pullNow] at hm' ⊢
    simp only [results_cons, Event.result, Option.toList_none, List.append_nil]
    exact h.last hk m' hm'
  · rw [serve_pullNow] at hr ⊢
    by_cases huw : u = w
    · obtain rfl : v.response key m w = r := by simpa [huw] using hr
      exact ⟨hptr, by simp [hm, response]⟩
    · exact h.held u r (by simpa [huw] using hr)
  · rw [serve_pullNow]
    refine always_cons.mpr ⟨⟨fun r hr _ => ?_, by simp⟩,
      always_cons.mpr ⟨carriesResult_other _ (by simp) (by simp), h.carries⟩⟩
    obtain rfl := Event.pullResponse.inj hr
    have hpast : responses (v.response key m w).sender key (.pullRequest key w :: v.log) =
        responses w key v.log := by
      simp [response, Event.isResponse]
    rw [hpast, results_cons]
    simp only [Event.result, Option.toList_none, List.append_nil]
    rw [getElem?_results_of_last _ hlast (hrun.published_of_answers hw ha)]
    simp only [response, hptr]

/-- The pulls an `ALL_RECV` answers get the result of its round. -/
theorem finished (h : Publishing job key v ws k) (hrun : Running job key v)
    {c : Compressor α κ} (hcomp : v.compressor = some c) (hN : 0 < cfg.numWorkers) {u : Work α}
    {rest : List (Work α)} (hu : v.pending = u :: rest) (hdone : u.isDone = true) :
    Publishing job key (serve job key (({ v with pending := rest }).finished job key)) [] 0 := by
  obtain ⟨hR, -, -, hall⟩ := hrun.of_due hu hdone
  set p := codec.compress c (v.stored.getD fun _ => 0) (job.len key) (job.dtype key) with hp
  have hpub : ({ v with pending := rest } : Slot α κ).publish job key =
      ({ v with
        pending := rest
        compressor := some p.1
        stored := some p.2.1
        merged := some (.buf key, p.2.2) }, .buf key, p.2.2) := by
    unfold publish
    rw [hcomp]
  obtain ⟨win, hserve, -⟩ := hrun.serve_finished hu hdone hN hpub
  have hresults : results key (serve job key (({ v with pending := rest }).finished job key)).log =
      results key v.log ++ [(p.1.buf, p.2.2)] := by
    rw [hserve]
    simp only [afterAllRecv]
    rw [answers_results, results_cons]
    simp [Event.result, read]
  refine ⟨h.progress.finished hrun hN hu hdone, fun hpos => absurd hpos (by simp), fun m hm => ?_,
    fun _ m hm => ?_, fun w r hr => ?_, ?_⟩
  · rw [hserve] at hm
    obtain rfl := Option.some.inj hm
    rfl
  · rw [hresults, List.getLast?_concat]
    rw [hserve] at hm ⊢
    obtain rfl := Option.some.inj hm
    rfl
  · rw [hserve] at hr ⊢
    obtain rfl := hrun.answered_of_allRecv hu hdone hr
    exact ⟨rfl, rfl⟩
  · rw [hserve]
    refine always_answers (P := CarriesResult key) (f := Slot.response key _ _)
      (fun _ => ⟨rfl, rfl⟩) hrun.window.present.nodup
      (always_cons.mpr ⟨carriesResult_other _ (by simp) (by simp), h.carries⟩)
      fun w hmem past _ _ _ hr hres => ⟨fun r hresp _ => ?_, by simp⟩
    obtain rfl := Event.pullResponse.inj hresp
    have hw := ((hrun.window.present.waiting w).mp hmem).1
    have hpast : responses w key past = (results key v.log).length := by
      rw [hr, length_results, ← (hall w hw).1]
      simp [Event.isResponse]
    show (results key past)[responses w key past]? = _
    rw [hres, results_cons, hpast]
    simp [Event.result, read, response]

/-- The delivery of an answer finds what was sent. -/
theorem deliver (h : Publishing job key v ws k) (hrun : Running job key v) {w : ℕ}
    {r : Response α} (hp : v.phase w = .answered r) :
    Publishing job key { (v.observe job key (.delivered r (v.read r.ptr))).setPhase w .push with
      round := Function.update v.round w (v.round w + 1) } ws k := by
  have hw := hrun.lt_of_phase hp (by simp)
  obtain ⟨hsender, -, -⟩ := hrun.held w r hp
  obtain ⟨hptr, hlen⟩ := h.held w r hp
  obtain ⟨m, hm, hmlen⟩ := Option.map_eq_some_iff.mp hlen
  have hk : k = 0 := by
    by_contra hne
    have := (h.closed (Nat.pos_of_ne_zero hne)).2 w hw
    simp [hp, Phase.isAnswered] at this
  have hround := hrun.published_of_answered hp
  refine ⟨h.progress.congr rfl rfl ?_ ?_, fun hpos => absurd hpos (by omega), h.merged,
    fun _ m' hm' => ?_, fun u r' hr' => ?_, ?_⟩
  · simp [observe, setPhase, Event.isResult]
  · simp [observe, setPhase, Event.isIssue]
  · simp only [setPhase_log, observe_log, results_cons, Event.result, Option.toList_none,
      List.append_nil]
    exact h.last hk m' hm'
  · by_cases huw : u = w
    · simp [huw, setPhase] at hr'
    · exact h.held u r' (by simpa [huw, setPhase, observe] using hr')
  · simp only [setPhase_log, observe_log]
    refine always_cons.mpr ⟨⟨by simp, fun r' content hr' _ => ?_⟩, h.carries⟩
    obtain ⟨rfl, rfl⟩ := Event.delivered.inj hr'
    rw [hsender, getElem?_results_of_last _ (h.last hk m hm) hround, hptr, hmlen]

variable [Add α]

/-- Every admitted step keeps the answers right. -/
theorem step (h : Publishing job key v ws k) (hrun : Running job key v) (hN : 0 < cfg.numWorkers)
    (hfifo : cfg.enableSchedule = false) (hcomp : v.compressor.isSome = true) {a : SlotMove}
    {v' : Slot α κ} (hguard : v.NoEarlyReceive cfg a) (hstep : Step job key v a v') :
    ∃ ws' k', Publishing job key v' ws' k' := by
  obtain ⟨c, hc⟩ := Option.isSome_iff_exists.mp hcomp
  cases hstep with
  | init hw hp hs => exact (hrun.not_initPush hw hp).elim
  | register hw hp => exact (hrun.not_registerPush hw hp).elim
  | push hw hp ha => exact ⟨_, k, h.pushed hrun hfifo hw hp ha⟩
  | @pullLater w req hw hp hreq ha =>
      refine ⟨ws, k, h.progress.congr rfl rfl ?_ ?_, fun hpos => ?_, h.merged, fun hk m hm => ?_,
        fun u r hr => ?_, ?_⟩
      · rw [serve_pullLater]
        simp [Event.isResult]
      · rw [serve_pullLater]
        simp [Event.isIssue]
      · obtain ⟨hopen, hanswered⟩ := h.closed hpos
        rw [serve_pullLater]
        refine ⟨fun hc => hopen ((present_isPushFinished _).mp hc), fun u hu => ?_⟩
        by_cases huw : u = w
        · simp [huw, Phase.isAnswered]
        · simpa [huw] using hanswered u hu
      · rw [serve_pullLater] at hm ⊢
        simp only [results_cons, Event.result, Option.toList_none, List.append_nil]
        exact h.last hk m hm
      · rw [serve_pullLater] at hr ⊢
        by_cases huw : u = w
        · simp [huw] at hr
        · exact h.held u r (by simpa [huw] using hr)
      · rw [serve_pullLater]
        exact always_cons.mpr ⟨carriesResult_other _ (by simp) (by simp), h.carries⟩
  | pullNow hw hp ha hm => exact ⟨ws, k, h.pullNow hrun hw ha hm⟩
  | @execute u rest hu =>
      cases hdone : u.isDone with
      | true =>
          cases u with
          | done => exact ⟨[], 0, h.finished hrun hc hN hu rfl⟩
          | _ => cases hdone
      | false =>
          obtain ⟨hk, hnext, heq, hfirst⟩ := h.progress.executed hu hdone
          have hclosed : v.window.isPushFinished ≠ some true ∧
              ∀ w < cfg.numWorkers, (v.phase w).isAnswered = false := by
            by_cases hk : k = 0
            · obtain ⟨data, len, rfl⟩ := hfirst hk
              exact hguard rfl data len rest hu
            · exact h.closed (Nat.pos_of_ne_zero hk)
          refine ⟨ws, k + 1, ?_⟩
          rw [heq] at hnext ⊢
          exact ⟨hnext, fun _ => hclosed, h.merged, fun hc => absurd hc (by simp), h.held, h.carries⟩
  | deliver hp => exact ⟨ws, k, h.deliver hrun hp⟩
  | shuffle hs hperm =>
      rw [hfifo] at hs
      cases hs

end Publishing

/-- In every admitted run the answers are right. -/
theorem Running.publishing [Add α] (hN : 0 < cfg.numWorkers) (hfifo : cfg.enableSchedule = false)
    (hc : job.compressed key = true)
    (hr : Reachable (· = Slot.init) (Guarded (NoEarlyReceive cfg) (Step job key)) v)
    (hrun : Running job key v) : ∃ ws k, Publishing job key v ws k := by
  refine running_invariant (P := fun v => ∃ ws k, Publishing job key v ws k) hN
    (fun v hrun hfresh hreq => ⟨[], 0, .of_fresh hfresh hrun hreq⟩)
    (fun v a v' hrun hguard hstep hv => ?_) hr hrun
  obtain ⟨ws, k, h⟩ := hv
  exact h.step hrun hN hfifo (hrun.compressor.mp hc) hguard hstep

end Slot

/-! ### The results of a run -/

/--
**Answers carry the result of their round, as long as the next round waits for them.**
In a run in which no `COPY_FIRST` of a compressed key is executed while the window of
the key is open or an answer of it is on its way, the answer to the `r`-th pull of every
worker is what `Compress` returned at the `r`-th `ALL_RECV`, and still is when it is
delivered.
-/
theorem answers_carry_result [AddCommMonoid α] (job : Job α κ cfg codec) (hcfg : cfg.RunsSync)
    (hfifo : cfg.enableSchedule = false) {key : Key} (hk : key ∈ job.keys)
    (hc : job.compressed key = true) {x : World α κ}
    (hx : Reachable (· = World.init cfg)
      (Guarded (World.NoEarlyStart cfg key) (World.Step job)) x) :
    ∀ e past, (e :: past) <:+ x.log → CarriesResult key e past := by
  intro e past hp
  have hinv := World.inv_of_reached hcfg hx.of_guarded
  have hlog : (x.view key).log = x.log.filter fun e => e.key = key := rfl
  have hcarries : e.key = key → CarriesResult key e (past.filter fun e => e.key = key) := by
    intro hekey
    refine Always.of_filter (P := CarriesResult key) ?_ hp (decide_eq_true hekey)
    rw [← hlog]
    have hmem : e ∈ (x.view key).log := by
      rw [hlog]
      exact List.mem_filter.mpr ⟨hp.mem List.mem_cons_self, decide_eq_true hekey⟩
    cases hinv.slots key hk with
    | running hrun =>
        obtain ⟨ws, k, h⟩ := hrun.publishing hcfg.numWorkers hfifo hc
          (World.slot_reachable hcfg hk (Slot.NoEarlyReceive cfg) World.NoEarlyStart.slot hx)
        exact h.carries
    | init h _ _ => exact h.fresh.carriesResult
    | register h _ _ => exact h.fresh.carriesResult
  refine ⟨fun r hr hkey => ?_, fun r content hr hkey => ?_⟩
  · have := (hcarries (by rw [hr]; exact hkey)).1 r hr hkey
    simpa using this
  · have := (hcarries (by rw [hr]; exact hkey)).2 r content hr hkey
    simpa using this

/-! ### Two rounds of a key of signs -/

/-- A key of two elements, of which `n` workers push the signs; they change with the round. -/
def signKey (n : ℕ) : Job (Compressor.Cell 32 ℚ) Unit (defaultConfig n) (onebitCodec 32 ℚ false) where
  keys := {0}
  len _ := 8
  dtype _ := .float32
  compressed _ := true
  init _ _ _ := 0
  content _ _ := 0
  contentLen _ := 1
  pushed _ _ r := (Compressor.Onebit.compress false (fun _ => 0) (fun _ => (-1) ^ r) 2).1
  pushedLen _ _ _ := 8
  keys_lt := defaultConfig_zero n
  pushedLen_pos _ _ _ := by decide
  pushedLen_le _ _ _ := Nat.le_refl 8
  pushedLen_eq _ _ _ h := by cases h
  created _ _ := rfl

/-- In the second round of two workers, whose signs are those of the first turned around, a pull
gets what the sum was compressed to, and has it when it is delivered. -/
theorem answers_carry_result_two :
    ∃ (x : World (Compressor.Cell 32 ℚ) Unit) (r : Response (Compressor.Cell 32 ℚ))
      (content : Mem (Compressor.Cell 32 ℚ)) (past : List (Event (Compressor.Cell 32 ℚ))),
      Event.delivered r content :: past <:+ x.log ∧ deliveries r.sender 0 past = 1 ∧
        (results 0 past)[1]? = some (content, r.len) := by
  have hrun : ((World.init (defaultConfig 2)).after (signKey 2)
      (fun x a => decide (x.NoEarlyStart (defaultConfig 2) 0 a))
      [.request 0 0, .request 1 0, .request 0 0, .request 1 0, .request 0 0, .request 1 0,
        .pop 0, .execute 0, .pop 0, .execute 0, .pop 0, .execute 0, .request 0 0, .deliver 0 0,
        .request 0 0, .request 1 0, .deliver 1 0, .request 1 0, .pop 0, .execute 0, .pop 0,
        .execute 0, .pop 0, .execute 0, .request 1 0, .deliver 1 0]).bind (fun x =>
          (lastDelivery x.log).map fun (r, _, past) => (r.key, deliveries r.sender 0 past)) =
      some (0, 1) := by
    decide +kernel
  obtain ⟨x, hx, hlog⟩ := Option.bind_eq_some_iff.mp hrun
  have hreached := World.reachable_after (fun _ _ h => of_decide_eq_true h) (.start rfl) hx
  obtain ⟨⟨r, content, past⟩, hlast, hpair⟩ := Option.map_eq_some_iff.mp hlog
  obtain ⟨hkey, hround⟩ := Prod.mk.inj hpair
  have hp : Event.delivered r content :: past <:+ x.log :=
    lastDelivery_eq_some hlast ▸ List.suffix_refl _
  have := (answers_carry_result (signKey 2) ⟨rfl, rfl, by decide, by decide⟩ rfl
    (show (0 : Key) ∈ (signKey 2).keys by simp [signKey]) rfl hreached _ past hp).2 r content rfl hkey
  exact ⟨x, r, content, past, hp, hround, by rwa [hround] at this⟩

/--
Worker 0 has its answer and pushes again; that push is decompressed before worker 1
pulls, who is answered with the decompressed data.
-/
theorem next_decompress_overtakes_pull :
    ¬∀ (cfg : Config) (job : Job (Compressor.Cell 32 ℚ) Unit cfg (onebitCodec 32 ℚ false))
      (key : Key) (x : World (Compressor.Cell 32 ℚ) Unit),
      cfg.RunsSync → cfg.enableSchedule = false → key ∈ job.keys → job.compressed key = true →
        World.Reached job x → ∀ e past, (e :: past) <:+ x.log → CarriesResult key e past := by
  intro h
  have hrun : ((World.init (defaultConfig 2)).after (signKey 2) (fun _ _ => true)
      [.request 0 0, .request 1 0, .request 0 0, .request 1 0, .request 0 0, .request 1 0,
        .pop 0, .execute 0, .pop 0, .execute 0, .pop 0, .execute 0, .request 0 0,
        .deliver 0 0, .request 0 0, .pop 0, .execute 0, .request 1 0]).bind (fun x =>
          (lastAnswer x.log).map fun (r, past) =>
            (r.key, (r.snapshot 1).2,
              (results 0 past)[responses r.sender 0 past]?.map fun p => (p.1 1).2)) =
        some (0, -1, some 1) := by
    decide +kernel
  obtain ⟨x, hx, hlog⟩ := Option.bind_eq_some_iff.mp hrun
  obtain ⟨⟨r, past⟩, hlast, hpair⟩ := Option.map_eq_some_iff.mp hlog
  obtain ⟨hkey, hrest⟩ := Prod.mk.inj hpair
  obtain ⟨hsnap, hresult⟩ := Prod.mk.inj hrest
  have := (h _ (signKey 2) 0 x ⟨rfl, rfl, by decide, by decide⟩ rfl (by simp [signKey]) rfl
    (World.reached_after hx) _ past (lastAnswer_eq_some hlast ▸ List.suffix_refl _)).1 r rfl hkey
  rw [this, Option.map_some, hsnap] at hresult
  exact absurd hresult (by decide)

end DeepInc.Server
