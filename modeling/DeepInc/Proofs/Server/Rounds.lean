/-
The rounds of a key.

What a slot goes through has three stages: the init pushes are collected, then the registrations
where the key is compressed, and from then on rounds.  `Running` is what holds in the last one.

It counts.  With `R` rounds whose `ALL_RECV` was issued and `D` whose `ALL_RECV` was processed,
every worker has pushed in `R` rounds, or in one more if it stands in `updates->request`; its
answers number `D` or one less; and it can only push again after its answer.  So `R` is never
more than one ahead of `D`, and while it is, nobody pushes and nobody is owed an answer.

These counts say what the tables of the server hold, and the other way round: a worker that
pulls is answered at once if its answers are one less than `D`, and waits if they are `D`.

A step changes the counts of one worker, or those of all who wait when an `ALL_RECV` is
executed.  The file goes through the steps one by one, and ends with a rule: what holds when the
rounds start, and is kept by the steps of a slot in its rounds, holds in every run.
-/
import DeepInc.Proofs.Server.Window

namespace DeepInc.Server

open Transition

variable {α κ : Type} {cfg : Config} {codec : Codec α κ}

/-- A pointer that can be published for the key. -/
def OwnPtr (key : Key) (p : Ptr α) : Prop := p = .stored key ∨ p = .buf key

/--
A response answers the one pull that has no answer yet, after the round of that pull was
processed and before the next one is issued.
-/
def OnTime (key : Key) (e : Event α) (past : List (Event α)) : Prop :=
  ∀ r, e = .pullResponse r → pulls r.sender key past = responses r.sender key past + 1 ∧
    publishedRounds key past = responses r.sender key past + 1 ∧
    issuedRounds key past = responses r.sender key past + 1

namespace Slot

variable (job : Job α κ cfg codec) (key : Key)

/-- Worker `w` of a slot in its rounds. -/
def WorkerInv (v : Slot α κ) (w : ℕ) : Prop :=
  Worker (publishedRounds key v.log) (issuedRounds key v.log) (w ∈ v.request) (v.phase w)
    (v.round w) (responses w key v.log) (pulls w key v.log) (deliveries w key v.log)

/-- A slot in its rounds. -/
structure Running (v : Slot α κ) : Prop where
  stored : v.stored.isSome = true
  compressor : job.compressed key = true ↔ v.compressor.isSome = true
  idle : ∀ w, cfg.numWorkers ≤ w → v.phase w = .initPush
  workers : ∀ w < cfg.numWorkers, WorkerInv key v w
  hashed : ∀ w, v.phase w = .pull ∨ 0 < pulls w key v.log → v.hashed = true
  request_lt : ∀ w ∈ v.request, w < cfg.numWorkers
  request_nodup : v.request.Nodup
  request_length : v.request.length < cfg.numWorkers
  done : v.pending.countP Work.isDone + publishedRounds key v.log = issuedRounds key v.log
  window : WindowInv cfg.numWorkers (publishedRounds key v.log) (fun w => responses w key v.log)
    (fun w => v.phase w = .pullWait) v.window
  merged : 0 < publishedRounds key v.log → v.merged.isSome = true
  merged_own : ∀ m, v.merged = some m → OwnPtr key m.1
  held : ∀ w r, v.phase w = .answered r → r.sender = w ∧ r.key = key ∧ OwnPtr key r.ptr
  onTime : Always (OnTime key) v.log

/-- Nothing of the rounds has happened yet. -/
structure Fresh (v : Slot α κ) : Prop where
  pending : v.pending = []
  window : v.window = .absent
  round : ∀ w, v.round w = 0
  issued : issuedRounds key v.log = 0
  published : publishedRounds key v.log = 0
  pulls : ∀ w, pulls w key v.log = 0
  responses : ∀ w, responses w key v.log = 0
  deliveries : ∀ w, deliveries w key v.log = 0
  merged : v.merged = none
  onTime : Always (OnTime key) v.log

/-- The workers are collected: each is still to send `ready`, or stands in the request. -/
structure Collecting (cfg : Config) (key : Key) (ready waiting : Phase α) (v : Slot α κ) : Prop where
  idle : ∀ w, cfg.numWorkers ≤ w → v.phase w = .initPush
  phase : ∀ w < cfg.numWorkers,
    (v.phase w = ready ∧ w ∉ v.request) ∨ (v.phase w = waiting ∧ w ∈ v.request)
  request_lt : ∀ w ∈ v.request, w < cfg.numWorkers
  request_nodup : v.request.Nodup
  request_length : v.request.length < cfg.numWorkers
  fresh : Fresh key v

/-- What holds of a slot in every run. -/
inductive Inv (v : Slot α κ) : Prop
  | init (h : Collecting cfg key .initPush .initWait v) (hs : v.stored = none)
      (hc : v.compressor = none)
  | register (h : Collecting cfg key .registerPush .registerWait v)
      (hs : v.stored.isSome = true) (hc : job.compressed key = true)
  | running (h : Running job key v)

end Slot

/-! ### Collecting the workers

The two barriers before the rounds, as a slot sees them.  The workers in the request are
distinct; the last one to join makes them all the workers, and everybody goes on to the next
phase.
-/

namespace Slot

variable {job : Job α κ cfg codec} {key : Key} {v : Slot α κ}

/-- Push responses do not count for anything in the record. -/
theorem Fresh.pushResponses (h : Fresh key v) (l : List ℕ) (phase : ℕ → Phase α)
    (request : List ℕ) (stored : Option (Mem α)) (compressor : Option (Compressor α κ)) :
    Fresh key { v with
      stored := stored, request := request, compressor := compressor, phase := phase
      log := (l.map (Event.pushResponse key)).reverse ++ v.log } := by
  have hmem : ∀ e ∈ (l.map (Event.pushResponse (α := α) key)).reverse,
      ∃ w, e = Event.pushResponse key w := by
    intro e he
    simp only [List.mem_reverse, List.mem_map] at he
    obtain ⟨w, -, rfl⟩ := he
    exact ⟨w, rfl⟩
  refine ⟨h.pending, h.window, h.round, ?_, ?_, fun w => ?_, fun w => ?_, fun w => ?_, h.merged, ?_⟩
  · rw [← h.issued]
    exact issuedRounds_append fun e he => by obtain ⟨w, rfl⟩ := hmem e he; rfl
  · rw [← h.published]
    exact publishedRounds_append fun e he => by obtain ⟨w, rfl⟩ := hmem e he; rfl
  · rw [← h.pulls w]
    exact pulls_append fun e he => by obtain ⟨w, rfl⟩ := hmem e he; rfl
  · rw [← h.responses w]
    exact responses_append fun e he => by obtain ⟨w, rfl⟩ := hmem e he; rfl
  · rw [← h.deliveries w]
    exact deliveries_append fun e he => by obtain ⟨w, rfl⟩ := hmem e he; rfl
  · exact h.onTime.append_map _ l fun _ _ _ _ r hr => by cases hr

/-- Before the rounds there is no answer. -/
theorem Fresh.not_answered (h : Fresh key v) {r : Response α} (hr : .pullResponse r ∈ v.log) :
    r.key ≠ key := by
  intro hkey
  have hpos : 0 < DeepInc.Server.responses r.sender key v.log :=
    List.countP_pos_iff.mpr ⟨_, hr, by simp [Event.isResponse, hkey]⟩
  rw [h.responses] at hpos
  cases hpos

namespace Collecting

variable {ready waiting : Phase α} {w : ℕ}

theorem not_mem (h : Collecting cfg key ready waiting v) (hne : ready ≠ waiting)
    (hw : w < cfg.numWorkers) (hp : v.phase w = ready) : w ∉ v.request := by
  rcases h.phase w hw with ⟨-, hnot⟩ | ⟨hwait, -⟩
  · exact hnot
  · exact absurd (hp.symm.trans hwait) hne

/-- The workers in the request, with one who is still to join. -/
theorem joined (h : Collecting cfg key ready waiting v) (hne : ready ≠ waiting)
    (hw : w < cfg.numWorkers) (hp : v.phase w = ready) :
    Joined cfg.numWorkers (v.request ++ [w]) :=
  .concat ⟨h.request_nodup, h.request_lt⟩ hw (h.not_mem hne hw hp)

/-- A worker who is not the last one joins. -/
theorem join (h : Collecting cfg key ready waiting v) (hne : ready ≠ waiting)
    (hw : w < cfg.numWorkers) (hp : v.phase w = ready)
    (hlen : v.request.length + 1 < cfg.numWorkers) (compressor : Option (Compressor α κ)) :
    Collecting cfg key ready waiting { v.setPhase w waiting with
      request := v.request ++ [w], compressor := compressor } := by
  have hjoined := h.joined hne hw hp
  refine ⟨fun u hu => ?_, fun u hu => ?_, hjoined.lt, hjoined.nodup, by simpa using hlen, ?_⟩
  · have hne' : u ≠ w := by omega
    simpa [setPhase, hne'] using h.idle u hu
  · by_cases huw : u = w
    · subst huw
      exact .inr ⟨by simp [setPhase], by simp⟩
    · simpa [setPhase, huw] using h.phase u hu
  · exact h.fresh.pushResponses [] _ _ _ _

/-- When the last worker joins, everyone is there. -/
theorem full (h : Collecting cfg key ready waiting v) (hne : ready ≠ waiting)
    (hw : w < cfg.numWorkers) (hp : v.phase w = ready)
    (hlen : cfg.numWorkers ≤ v.request.length + 1) {u : ℕ} (hu : u < cfg.numWorkers) :
    u ∈ v.request ++ [w] ∧ (v.setPhase w waiting).phase u = waiting := by
  have hmem : u ∈ v.request ++ [w] := (h.joined hne hw hp).mem (by simpa using hlen) hu
  refine ⟨hmem, ?_⟩
  by_cases huw : u = w
  · simp [setPhase, huw]
  · rcases List.mem_append.mp hmem with hmem | hmem
    · rcases h.phase u hu with ⟨-, hnot'⟩ | ⟨hwait, -⟩
      · exact absurd hmem hnot'
      · simpa [setPhase, huw] using hwait
    · exact absurd (List.mem_singleton.mp hmem) huw

/-- Where everyone is once the push responses are out. -/
theorem released (h : Collecting cfg key ready waiting v) (job : Job α κ cfg codec)
    (hne : ready ≠ waiting) (hw : w < cfg.numWorkers) (hp : v.phase w = ready)
    (hlen : cfg.numWorkers ≤ v.request.length + 1) (u : ℕ) :
    (if u ∈ v.request ++ [w] then job.acked key ((v.setPhase w waiting).phase u)
      else (v.setPhase w waiting).phase u) =
    if u < cfg.numWorkers then job.acked key waiting else .initPush := by
  by_cases hu : u < cfg.numWorkers
  · obtain ⟨hmem, hphase⟩ := h.full hne hw hp hlen hu
    rw [if_pos hmem, if_pos hu, hphase]
  · have huw : u ≠ w := by omega
    have hnot : u ∉ v.request ++ [w] := by
      intro hmem
      rcases List.mem_append.mp hmem with hmem | hmem
      · exact hu (h.request_lt u hmem)
      · exact huw (List.mem_singleton.mp hmem)
    rw [if_neg hnot, if_neg hu]
    simpa [setPhase, huw] using h.idle u (Nat.le_of_not_lt hu)

end Collecting

/-- A slot whose workers are all through with the initialisation is in its rounds. -/
theorem Running.of_fresh (hN : 0 < cfg.numWorkers) (h : Fresh key v)
    (hs : v.stored.isSome = true)
    (hc : job.compressed key = true ↔ v.compressor.isSome = true)
    (hidle : ∀ w, cfg.numWorkers ≤ w → v.phase w = .initPush)
    (hphase : ∀ w < cfg.numWorkers, v.phase w = .push) (hreq : v.request = []) :
    Running job key v := by
  have hany : ∀ w, v.phase w = .initPush ∨ v.phase w = .push := by
    intro w
    rcases Nat.lt_or_ge w cfg.numWorkers with hw | hw
    · exact .inr (hphase w hw)
    · exact .inl (hidle w hw)
  refine ⟨hs, hc, hidle, fun w hw => ?_, fun w hp => ?_, by simp [hreq], by simp [hreq],
    by simpa [hreq] using hN, ?_, ?_, ?_, ?_, fun w r hp => ?_, h.onTime⟩
  · unfold WorkerInv
    constructor <;>
      simp [hphase w hw, hreq, h.round, h.issued, h.published, h.pulls, h.responses,
        h.deliveries, Phase.InRound, Phase.ahead, Phase.held, Phase.waits]
  · rcases hp with hp | hp
    · rcases hany w with hq | hq <;> rw [hq] at hp <;> cases hp
    · rw [h.pulls] at hp
      cases hp
  · simp [h.pending, h.issued, h.published]
  · rw [h.window, h.published]
    constructor <;> simp [Window.absent]
    intro w hw hp
    rw [hphase w hw] at hp
    cases hp
  · simp [h.published]
  · simp [h.merged]
  · rcases hany w with hq | hq <;> rw [hq] at hp <;> cases hp

theorem Running.compressor_eq_none (h : Running job key v) (hc : job.compressed key = false) :
    v.compressor = none := by
  have := h.compressor
  rw [hc] at this
  simpa using this

theorem Running.not_initPush (h : Running job key v) {w : ℕ} (hw : w < cfg.numWorkers)
    (hp : v.phase w = .initPush) : False := by
  have hphase := (h.workers w hw).phase
  rw [hp] at hphase
  exact hphase

theorem Running.not_registerPush (h : Running job key v) {w : ℕ} (hw : w < cfg.numWorkers)
    (hp : v.phase w = .registerPush) : False := by
  have hphase := (h.workers w hw).phase
  rw [hp] at hphase
  exact hphase

/-- Collecting, from a slot whose workers have all been let go. -/
theorem Collecting.of_fresh (hN : 0 < cfg.numWorkers) {ready waiting : Phase α}
    (h : Fresh key v) (hphase : ∀ w, v.phase w =
      if w < cfg.numWorkers then ready else .initPush) (hreq : v.request = []) :
    Collecting cfg key ready waiting v := by
  refine ⟨fun w hw => ?_, fun w hw => .inl ⟨?_, by simp [hreq]⟩, by simp [hreq], by simp [hreq],
    by simpa [hreq] using hN, h⟩
  · rw [hphase, if_neg (by omega)]
  · rw [hphase, if_pos hw]

/-- The init push of a worker. -/
theorem Inv.initPushed [Zero α] {w : ℕ} (h : Inv job key v) (hw : w < cfg.numWorkers)
    (hp : v.phase w = .initPush) :
    Inv job key (serve job key ((v.setPhase w .initWait).initPushed job key w)) := by
  have hN : 0 < cfg.numWorkers := Nat.lt_of_le_of_lt (Nat.zero_le w) hw
  cases h with
  | register h hs hc =>
      rcases h.phase w hw with ⟨hq, -⟩ | ⟨hq, -⟩ <;> rw [hq] at hp <;> cases hp
  | running h => exact (h.not_initPush hw hp).elim
  | init h hs hc =>
      have hne : (Phase.initPush : Phase α) ≠ .initWait := by simp
      unfold Slot.initPushed
      by_cases hlen : v.request.length + 1 < cfg.numWorkers
      · rw [if_pos (show (v.setPhase w .initWait).request.length + 1 < _ from hlen),
          serve_collect_join]
        · exact .init (h.join hne hw hp hlen v.compressor) hs hc
        · exact hlen
      · have hfull := Nat.le_of_not_lt hlen
        have hphase := h.released job hne hw hp hfull
        have hfresh := h.fresh.pushResponses (v.request ++ [w])
        have hnodup := (h.joined hne hw hp).nodup
        rw [if_neg (show ¬(v.setPhase w .initWait).request.length + 1 < _ from hlen),
          serve_collect_full job key (by exact hfull) (by exact hnodup)]
        cases hcomp : job.compressed key with
        | true =>
            refine .register (.of_fresh hN (hfresh _ _ _ v.compressor) (fun u => ?_) rfl) rfl hcomp
            exact (hphase u).trans (by simp [Job.acked, hcomp])
        | false =>
            refine .running (.of_fresh hN (hfresh _ _ _ v.compressor) rfl (by simp [hcomp, hc])
              (fun u hu => ?_) (fun u hu => ?_) rfl)
            · exact (hphase u).trans (if_neg (by omega))
            · exact (hphase u).trans ((if_pos hu).trans (by simp [Job.acked, hcomp]))

/-- The registration of a worker. -/
theorem Inv.registered {w : ℕ} {c : Compressor α κ} (h : Inv job key v)
    (hw : w < cfg.numWorkers) (hp : v.phase w = .registerPush) :
    Inv job key (serve job key
      ((v.setPhase w .registerWait).registered cfg.numWorkers key w c)) := by
  have hN : 0 < cfg.numWorkers := Nat.lt_of_le_of_lt (Nat.zero_le w) hw
  cases h with
  | init h hs hc =>
      rcases h.phase w hw with ⟨hq, -⟩ | ⟨hq, -⟩ <;> rw [hq] at hp <;> cases hp
  | running h => exact (h.not_registerPush hw hp).elim
  | register h hs hc =>
      have hne : (Phase.registerPush : Phase α) ≠ .registerWait := by simp
      unfold Slot.registered
      by_cases hlen : v.request.length + 1 < cfg.numWorkers
      · rw [serve_collect_join]
        · exact .register (h.join hne hw hp hlen _) hs hc
        · exact hlen
      · have hfull := Nat.le_of_not_lt hlen
        have hphase := h.released job hne hw hp hfull
        have hnodup := (h.joined hne hw hp).nodup
        rw [serve_collect_full job key (by exact hfull) (by exact hnodup)]
        refine .running (.of_fresh hN (h.fresh.pushResponses (v.request ++ [w]) _ _ _ _) hs
          (by simp [hc]) (fun u hu => ?_) (fun u hu => ?_) rfl)
        · exact (hphase u).trans (if_neg (by omega))
        · exact (hphase u).trans (if_pos hu)

/-! ### Rounds

For each step there is one lemma about the slot it leaves, `serve_…`, and one about the counts.
The lemmas about the counts speak of one worker at a time, and are in `Window.lean`.
-/

/-- Not every worker has joined the round. -/
theorem Running.exists_not_mem (h : Running job key v) : ∃ w < cfg.numWorkers, w ∉ v.request := by
  by_contra hall
  simp only [not_exists, not_and, not_not] at hall
  have hsub : Finset.range cfg.numWorkers ⊆ v.request.toFinset := by
    intro w hw
    exact List.mem_toFinset.mpr (hall w (Finset.mem_range.mp hw))
  have := Finset.card_le_card hsub
  rw [Finset.card_range, List.toFinset_card_of_nodup h.request_nodup] at this
  exact absurd h.request_length (Nat.not_lt.mpr this)

theorem Running.published_le (h : Running job key v) :
    publishedRounds key v.log ≤ issuedRounds key v.log := by
  have := h.done
  omega

/-- No more than one `ALL_RECV` is due. -/
theorem Running.issued_le (h : Running job key v) :
    issuedRounds key v.log ≤ publishedRounds key v.log + 1 := by
  obtain ⟨w, hw, hnot⟩ := h.exists_not_mem
  exact (h.workers w hw).issued_le hnot

/-- A worker in its rounds is one of the workers. -/
theorem Running.lt_of_phase (h : Running job key v) {w : ℕ} {p : Phase α} (hp : v.phase w = p)
    (hne : p ≠ .initPush) : w < cfg.numWorkers := by
  by_contra hw
  exact hne (hp.symm.trans (h.idle w (Nat.le_of_not_lt hw)))

/-- What a push leaves. -/
theorem serve_pushed (v : Slot α κ) (w : ℕ) (pending : List (Work α)) :
    serve job key ((v.setPhase w .pushWait).pushed cfg.numWorkers key w pending) =
      { v with
        hashed := true
        pending := pending
        request := if v.request.length + 1 = cfg.numWorkers then [] else v.request ++ [w]
        phase := Function.update v.phase w .pull
        log := (if v.request.length + 1 = cfg.numWorkers then [.issued key .allRecv] else []) ++
          .pushResponse key w ::
            .issued key (if v.request = [] then .copyFirst else .sumRecv) :: v.log } := by
  unfold pushed
  simp only [setPhase_request]
  split <;> simp [serve, observe, setPhase, Job.acked, *] <;> rfl

theorem isIssue_data (key : Key) (p : Prop) [Decidable p] :
    Event.isIssue (α := α) key (.issued key (if p then .copyFirst else .sumRecv)) = false := by
  split <;> rfl

theorem isIssue_last (key : Key) : Event.isIssue (α := α) key (.issued key .allRecv) = true := by
  simp [Event.isIssue]

theorem isIssue_ack (key : Key) (w : ℕ) :
    Event.isIssue (α := α) key (.pushResponse key w) = false := rfl

/-- What a push adds to the rounds. -/
theorem rounds_pushed (job : Job α κ cfg codec) (key : Key) (v : Slot α κ) (w : ℕ)
    (pending : List (Work α)) :
    let v' := serve job key ((v.setPhase w .pushWait).pushed cfg.numWorkers key w pending)
    publishedRounds key v'.log = publishedRounds key v.log ∧
      issuedRounds key v'.log = issuedRounds key v.log +
        if v.request.length + 1 = cfg.numWorkers then 1 else 0 := by
  intro v'
  have hv' : v' = _ := serve_pushed v w pending
  rw [hv']
  constructor
  · split <;> simp [Event.isResult]
  · split <;> simp [isIssue_data, isIssue_last, isIssue_ack]

/-- The workers who have pushed in the round, with one who has not. -/
theorem Running.joined (h : Running job key v) {w : ℕ} (hw : w < cfg.numWorkers)
    (hnot : w ∉ v.request) : Joined cfg.numWorkers (v.request ++ [w]) :=
  .concat ⟨h.request_nodup, h.request_lt⟩ hw hnot

/-- A push is made when every round is processed; the last one makes a round due. -/
theorem Running.pushed (h : Running job key v) {w : ℕ} {pending : List (Work α)}
    (hw : w < cfg.numWorkers) (hp : v.phase w = .push)
    (ha : Appends cfg v.pending (v.pushWork job key w) pending) :
    Running job key (serve job key
      ((v.setPhase w .pushWait).pushed cfg.numWorkers key w pending)) := by
  obtain ⟨hnot, -, -, -⟩ := (h.workers w hw).of_push hp h.published_le
  have hmem : ∀ u, v.request.length + 1 = cfg.numWorkers → u < cfg.numWorkers → u ≠ w →
      u ∈ v.request := by
    intro u hlen hu huw
    have := (h.joined hw hnot).mem (by simp [hlen]) hu
    simpa [huw] using this
  have hdone : pending.countP Work.isDone = v.pending.countP Work.isDone +
      if v.request.length + 1 = cfg.numWorkers then 1 else 0 := by
    rw [ha.1.countP_eq, List.countP_append]
    congr 1
    unfold pushWork
    split <;> split <;> simp [Work.isDone]
  obtain ⟨hD, hR⟩ := rounds_pushed job key v w pending
  rw [serve_pushed] at hD hR ⊢
  set log := (if v.request.length + 1 = cfg.numWorkers then [.issued key .allRecv] else []) ++
    .pushResponse key w :: .issued key (if v.request = [] then .copyFirst else .sumRecv) :: v.log
    with hlog
  have hresp : ∀ u, responses u key log = responses u key v.log := by
    intro u; rw [hlog]; split <;> simp [Event.isResponse]
  have hpulls : ∀ u, pulls u key log = pulls u key v.log := by
    intro u; rw [hlog]; split <;> simp [Event.isPull]
  have hdel : ∀ u, deliveries u key log = deliveries u key v.log := by
    intro u; rw [hlog]; split <;> simp [Event.isDelivery]
  refine ⟨h.stored, h.compressor, fun u hu => ?_, fun u hu => ?_, fun _ _ => rfl, ?_, ?_, ?_, ?_,
    ?_, fun hpos => h.merged (by rwa [hD] at hpos), h.merged_own, fun u r hr => ?_, ?_⟩
  · have huw : u ≠ w := by omega
    simpa [huw] using h.idle u hu
  · have hold := h.workers u hu
    unfold WorkerInv at hold ⊢
    simp only [hD, hR, hresp, hpulls, hdel]
    by_cases huw : u = w
    · subst huw
      rw [hp] at hold
      rw [Function.update_self]
      refine hold.push ?_
      by_cases hlen : v.request.length + 1 = cfg.numWorkers
      · simp [hlen, hnot]
      · simp [hlen, hnot]
    · rw [Function.update_of_ne huw]
      refine hold.rejoin ?_
      by_cases hlen : v.request.length + 1 = cfg.numWorkers
      · simp [hlen, hmem u hlen hu huw]
      · simp [hlen, huw]
  · intro u hu
    simp only at hu
    split at hu
    · simp at hu
    · exact (h.joined hw hnot).lt u hu
  · show (if _ then _ else _ : List ℕ).Nodup
    split
    · simp
    · exact (h.joined hw hnot).nodup
  · have hlen := h.request_length
    show (if _ then _ else _ : List ℕ).length < _
    split
    · simp only [List.length_nil]; omega
    · simp only [List.length_append, List.length_singleton]; omega
  · show pending.countP Work.isDone + publishedRounds key log = issuedRounds key log
    rw [hD, hR, hdone, ← h.done]
    omega
  · show WindowInv _ (publishedRounds key log) (fun u => responses u key log) _ v.window
    simp only [hD, hresp]
    refine h.window.congr_waits fun u _ => ?_
    by_cases huw : u = w
    · subst huw; simp [hp]
    · simp [huw]
  · by_cases huw : u = w
    · subst huw; simp at hr
    · exact h.held u r (by simpa [huw] using hr)
  · show Always (OnTime key) log
    rw [hlog]
    have hdata : Always (OnTime key) (.pushResponse key w ::
        .issued key (if v.request = [] then .copyFirst else .sumRecv) :: v.log) :=
      always_cons.mpr ⟨(by rintro r ⟨⟩), always_cons.mpr ⟨(by rintro r ⟨⟩), h.onTime⟩⟩
    split
    · exact always_cons.mpr ⟨(by rintro r ⟨⟩), hdata⟩
    · exact hdata

/-- What a pull that has to wait leaves. -/
theorem serve_pullLater (v : Slot α κ) (w : ℕ) (req : KVMeta) :
    serve job key (((v.setPhase w .pullWait).observe job key (.pullRequest key w)).pullLater req) =
      { v with
        window := { v.window.present with
          qPullReqmeta := v.window.present.qPullReqmeta ++ [req] }
        phase := Function.update v.phase w .pullWait
        log := .pullRequest key w :: v.log } := rfl

/-- A pull waits if its worker has the answer of the last round already. -/
theorem Running.pullLater (h : Running job key v) {w : ℕ} {req : KVMeta}
    (hw : w < cfg.numWorkers) (hp : v.phase w = .pull) (hreq : req.sender = w)
    (ha : ¬v.Answers w) :
    Running job key (serve job key
      (((v.setPhase w .pullWait).observe job key (.pullRequest key w)).pullLater req)) := by
  have hwin := h.window.present
  have hwork := h.workers w hw
  have hans : responses w key v.log = publishedRounds key v.log := by
    refine Nat.le_antisymm hwork.lead ?_
    by_cases hopen : v.window.present.isPushFinished = some true
    · have hseen : w ∈ v.window.present.seenSender := by
        by_contra hnot
        exact ha ⟨hopen, hnot⟩
      exact ((hwin.seen w).mp hseen).2.2.ge
    · exact hwin.answers_of_closed hopen hw
  rw [serve_pullLater]
  refine ⟨h.stored, h.compressor, fun u hu => ?_, fun u hu => ?_, fun u hu => ?_, h.request_lt,
    h.request_nodup, h.request_length, ?_, ?_, ?_, h.merged_own, fun u r hr => ?_, ?_⟩
  · have huw : u ≠ w := by omega
    simpa [huw] using h.idle u hu
  · have hold := h.workers u hu
    unfold WorkerInv at hold ⊢
    simp only [publishedRounds_cons, issuedRounds_cons, responses_cons, pulls_cons,
      deliveries_cons, Event.isResult, Event.isIssue, Event.isResponse, Event.isDelivery,
      Bool.false_eq_true, if_false, Nat.add_zero]
    by_cases huw : u = w
    · subst huw
      have hown : Event.isPull (α := α) u key (.pullRequest key u) = true := by
        simp [Event.isPull]
      rw [hp] at hold
      simp only [Function.update_self, hown, if_true]
      exact hold.pull hans
    · have hother : Event.isPull (α := α) u key (.pullRequest key w) = false := by
        simp [Event.isPull, Ne.symm huw]
      simp only [Function.update_of_ne huw, hother, Bool.false_eq_true, if_false, Nat.add_zero]
      exact hold
  · exact h.hashed w (.inl hp)
  · simpa [Event.isResult, Event.isIssue] using h.done
  · simp only [publishedRounds_cons, responses_cons, Event.isResult, Event.isResponse,
      Bool.false_eq_true, if_false, Nat.add_zero]
    subst hreq
    refine hwin.wait hw (by simp [hp]) fun u => ?_
    by_cases huw : u = req.sender
    · subst huw; simp
    · simp [huw]
  · simpa [Event.isResult] using h.merged
  · by_cases huw : u = w
    · subst huw; simp at hr
    · exact h.held u r (by simpa [huw] using hr)
  · exact always_cons.mpr ⟨(by rintro r ⟨⟩), h.onTime⟩

theorem present_isPushFinished (w : Window) :
    w.present.isPushFinished = some true ↔ w.isPushFinished = some true := by
  unfold Window.present
  split
  · rename_i hnone
    simp [hnone, Window.close]
  · exact Iff.rfl

/-- A pull that is answered finds something published. -/
theorem Running.merged_of_answers (h : Running job key v) {w : ℕ} (ha : v.Answers w) :
    v.merged.isSome = true := by
  have hwin := h.window.present
  obtain ⟨u, hu, hlt⟩ := hwin.opened.mp ha.1
  exact h.merged (by omega)

/-- It is the answer of the last round that was processed. -/
theorem Running.published_of_answers (h : Running job key v) {w : ℕ} (hw : w < cfg.numWorkers)
    (ha : v.Answers w) : publishedRounds key v.log = responses w key v.log + 1 := by
  have hwork := h.workers w hw
  have hne : responses w key v.log ≠ publishedRounds key v.log := fun heq =>
    ha.2 ((h.window.present.seen w).mpr ⟨ha.1, hw, heq⟩)
  have := hwork.lag
  have := hwork.lead
  omega

/-- What a pull that is answered leaves. -/
theorem serve_pullNow [Zero α] (v : Slot α κ) (w : ℕ) (m : Ptr α × ℕ) :
    serve job key (((v.setPhase w .pullWait).observe job key (.pullRequest key w)).pullNow
        cfg.numWorkers key m w) =
      { v with
        window := if (v.window.present.count w).pullCnt = cfg.numWorkers
          then (v.window.present.count w).close else v.window.present.count w
        phase := Function.update v.phase w (.answered (v.response key m w))
        log := .pullResponse (v.response key m w) :: .pullRequest key w :: v.log } := by
  have hresp : Slot.response key ((v.setPhase w .pullWait).observe job key
      (.pullRequest key w)) m w = v.response key m w := rfl
  have hwin : ((v.setPhase w .pullWait).observe job key (.pullRequest key w)).window
      = v.window := rfl
  unfold pullNow
  simp only [serve, List.foldl_cons, List.foldl_nil, hresp, hwin]
  simp [observe, setPhase, response]

/-- A pull is answered if its worker lacks the answer of the last round. -/
theorem Running.pullNow [Zero α] (h : Running job key v) {w : ℕ} {m : Ptr α × ℕ}
    (hw : w < cfg.numWorkers) (hp : v.phase w = .pull) (ha : v.Answers w)
    (hm : v.merged = some m) :
    Running job key (serve job key
      (((v.setPhase w .pullWait).observe job key (.pullRequest key w)).pullNow
        cfg.numWorkers key m w)) := by
  obtain ⟨hopen, hnew⟩ := ha
  have hwin := h.window.present
  have hwork := h.workers w hw
  have hans := h.published_of_answers hw ⟨hopen, hnew⟩
  unfold WorkerInv at hwork
  rw [hp] at hwork
  have hissued := hwork.issued_eq hans h.published_le
  rw [serve_pullNow]
  set r := v.response key m w with hr
  set log := Event.pullResponse r :: .pullRequest key w :: v.log with hlog
  have hD : publishedRounds key log = publishedRounds key v.log := by simp [log, Event.isResult]
  have hR : issuedRounds key log = issuedRounds key v.log := by simp [log, Event.isIssue]
  have hresp : ∀ u, responses u key log =
      Function.update (fun u => responses u key v.log) w (publishedRounds key v.log) u := by
    intro u
    by_cases huw : u = w
    · subst huw
      simp [log, Event.isResponse, hr, response, hans]
    · simp [log, Event.isResponse, hr, response, huw, Ne.symm huw]
  refine ⟨h.stored, h.compressor, fun u hu => ?_, fun u hu => ?_, fun u hu => ?_, h.request_lt,
    h.request_nodup, h.request_length, ?_, ?_, ?_, h.merged_own, fun u r' hr' => ?_, ?_⟩
  · have huw : u ≠ w := by omega
    simpa [huw] using h.idle u hu
  · have hold := h.workers u hu
    unfold WorkerInv at hold ⊢
    simp only [hD, hR, hresp]
    have hdel : deliveries u key log = deliveries u key v.log := by
      simp [log, Event.isDelivery]
    by_cases huw : u = w
    · subst huw
      have hpulls : pulls u key log = pulls u key v.log + 1 := by simp [log, Event.isPull]
      rw [hp] at hold
      simp only [Function.update_self, hpulls, hdel]
      exact hold.answer hans r
    · have hpulls : pulls u key log = pulls u key v.log := by
        simp [log, Event.isPull, Ne.symm huw]
      simp only [Function.update_of_ne huw, hpulls, hdel]
      exact hold
  · exact h.hashed w (.inl hp)
  · simpa only [hD, hR] using h.done
  · simp only [hD, hresp]
    refine (hwin.answer hw hopen hnew (fun u hu => (h.workers u hu).lead) hans
      (by simp [hp])).congr_waits fun u _ => ?_
    by_cases huw : u = w
    · subst huw; simp [hp]
    · simp [huw]
  · simpa only [hD] using h.merged
  · by_cases huw : u = w
    · subst huw
      simp only [Function.update_self, Phase.answered.injEq] at hr'
      subst hr'
      exact ⟨rfl, rfl, h.merged_own m hm⟩
    · exact h.held u r' (by simpa [huw] using hr')
  · refine always_cons.mpr ⟨fun r' hr' => ?_, always_cons.mpr ⟨(by rintro r' ⟨⟩), h.onTime⟩⟩
    obtain rfl := Event.pullResponse.inj hr'
    have hpulled := hwork.pulled
    simp only [Phase.waits, Nat.add_zero] at hpulled
    simp [Event.isResult, Event.isIssue, Event.isResponse, Event.isPull, hr, response, hans, hissued,
      hpulled]

/-- Summing pushes up does not concern the rounds. -/
theorem Running.stored' (h : Running job key v) {u : Work α} {rest : List (Work α)}
    (hpend : v.pending = u :: rest) (hu : u.isDone = false)
    {stored : Option (Mem α)} (hs : stored.isSome = true) {compressor : Option (Compressor α κ)}
    (hc : compressor.isSome = v.compressor.isSome) :
    Running job key { v with pending := rest, stored := stored, compressor := compressor } := by
  refine ⟨hs, by rw [h.compressor, ← hc], h.idle, h.workers, h.hashed, h.request_lt,
    h.request_nodup, h.request_length, ?_, h.window, h.merged, h.merged_own, h.held, h.onTime⟩
  have := h.done
  rw [hpend, List.countP_cons, hu] at this
  simpa using this

theorem received_isSome (v : Slot α κ) (data : Mem α) (len : ℕ) :
    (v.received job key data len).1.isSome = v.compressor.isSome := by
  unfold received
  split <;> simp [*]

/-- The delivery of an answer ends the round of its worker. -/
theorem Running.deliver [Zero α] (h : Running job key v) {w : ℕ} {r : Response α}
    (hp : v.phase w = .answered r) :
    Running job key
      { (v.observe job key (.delivered r (v.read r.ptr))).setPhase w .push with
        round := Function.update v.round w (v.round w + 1) } := by
  obtain ⟨hsender, hkey, -⟩ := h.held w r hp
  show Running job key { v with
    phase := Function.update v.phase w .push
    round := Function.update v.round w (v.round w + 1)
    log := .delivered r (v.read r.ptr) :: v.log }
  refine ⟨h.stored, h.compressor, fun u hu => ?_, fun u hu => ?_, fun u hu => ?_, h.request_lt,
    h.request_nodup, h.request_length, ?_, ?_, ?_, h.merged_own, fun u r' hr' => ?_, ?_⟩
  · have huw : u ≠ w := by
      have := h.lt_of_phase hp (by simp)
      omega
    simpa [huw] using h.idle u hu
  · have hold := h.workers u hu
    unfold WorkerInv at hold ⊢
    simp only [publishedRounds_cons, issuedRounds_cons, responses_cons, pulls_cons,
      deliveries_cons, Event.isResult, Event.isIssue, Event.isResponse, Event.isPull,
      Bool.false_eq_true, if_false, Nat.add_zero]
    by_cases huw : u = w
    · subst huw
      have hown : Event.isDelivery u key (.delivered r (v.read r.ptr)) = true := by
        simp [Event.isDelivery, hkey, hsender]
      rw [hp] at hold
      simp only [Function.update_self, hown, if_true]
      exact hold.deliver
    · have hother : Event.isDelivery u key (.delivered r (v.read r.ptr)) = false := by
        simp [Event.isDelivery, hsender, Ne.symm huw]
      simp only [Function.update_of_ne huw, hother, Bool.false_eq_true, if_false, Nat.add_zero]
      exact hold
  · rcases hu with hu | hu
    · by_cases huw : u = w
      · subst huw; simp at hu
      · exact h.hashed u (.inl (by simpa [huw] using hu))
    · exact h.hashed u (.inr (by simpa [Event.isPull] using hu))
  · simpa [Event.isResult, Event.isIssue] using h.done
  · simp only [publishedRounds_cons, responses_cons, Event.isResult, Event.isResponse,
      Bool.false_eq_true, if_false, Nat.add_zero]
    refine h.window.congr_waits fun u _ => ?_
    by_cases huw : u = w
    · subst huw; simp [hp]
    · simp [huw]
  · simpa [Event.isResult] using h.merged
  · by_cases huw : u = w
    · subst huw; simp at hr'
    · exact h.held u r' (by simpa [huw] using hr')
  · exact always_cons.mpr ⟨(by rintro r' ⟨⟩), h.onTime⟩

/-- What an `ALL_RECV` finds: everybody's push, and everybody's answer of the last round. -/
theorem Running.of_due (h : Running job key v) {u : Work α} {rest : List (Work α)}
    (hpend : v.pending = u :: rest) (hu : u.isDone = true) :
    issuedRounds key v.log = publishedRounds key v.log + 1 ∧
      rest.countP Work.isDone = 0 ∧ v.request = [] ∧
      ∀ w < cfg.numWorkers, responses w key v.log = publishedRounds key v.log ∧
        v.round w = publishedRounds key v.log ∧ (v.phase w = .pull ∨ v.phase w = .pullWait) := by
  have hdone := h.done
  rw [hpend, List.countP_cons, hu] at hdone
  simp only [if_true] at hdone
  have hle := h.issued_le
  have hR : issuedRounds key v.log = publishedRounds key v.log + 1 := by omega
  have hall : ∀ w < cfg.numWorkers, w ∉ v.request ∧
      responses w key v.log = publishedRounds key v.log ∧
      v.round w = publishedRounds key v.log ∧ (v.phase w = .pull ∨ v.phase w = .pullWait) := by
    intro w hw
    have := h.workers w hw
    unfold WorkerInv at this
    rw [hR] at this
    exact this.of_due
  refine ⟨hR, by omega, ?_, fun w hw => (hall w hw).2⟩
  by_contra hne
  obtain ⟨w, hw⟩ := List.exists_mem_of_ne_nil _ hne
  exact (hall w (h.request_lt w hw)).1 hw

/-- What publishing leaves alone, and the pointer it publishes. -/
theorem publish_spec [Zero α] (job : Job α κ cfg codec) (key : Key) (v : Slot α κ) : ∃ stored compressor m,
    v.publish job key = ({ v with stored := stored, compressor := compressor, merged := some m }, m) ∧
      (v.stored.isSome = true → stored.isSome = true) ∧
      compressor.isSome = v.compressor.isSome ∧ OwnPtr key m.1 := by
  unfold publish
  split
  · exact ⟨v.stored, v.compressor, _, rfl, id, rfl, .inl rfl⟩
  · rename_i c hc
    exact ⟨_, _, _, rfl, fun _ => rfl, by simp [hc], .inr rfl⟩

/-- Without a compressor it is the stored buffer that is published. -/
theorem publish_of_uncompressed [Zero α] {job : Job α κ cfg codec} {key : Key} {v : Slot α κ}
    (hcomp : v.compressor = none) : v.publish job key =
      ({ v with merged := some (.stored key, job.len key) }, .stored key, job.len key) := by
  unfold publish
  rw [hcomp]

/-- The slot an `ALL_RECV` leaves: `v₁` is the slot once the result is published. -/
def afterAllRecv [Zero α] (key : Key) (v v₁ : Slot α κ) (m : Ptr α × ℕ) (win : Window) :
    Slot α κ :=
  let q := v.window.present.qPullReqmeta
  { v₁ with
    window := win
    phase := fun w => if w ∈ q.map (·.sender) then .answered (v₁.response key m w)
      else v.phase w
    log := (q.map fun req => Event.pullResponse (v₁.response key m req.sender)).reverse ++
      .published key (v₁.read m.1) m.2 :: v.log }

/-- What an `ALL_RECV` leaves. -/
theorem Running.serve_finished [Zero α] (h : Running job key v) {u : Work α}
    {rest : List (Work α)} (hpend : v.pending = u :: rest) (hu : u.isDone = true)
    (hN : 0 < cfg.numWorkers) {v₁ : Slot α κ} {m : Ptr α × ℕ}
    (hpub : ({ v with pending := rest } : Slot α κ).publish job key = (v₁, m)) :
    ∃ win, serve job key (({ v with pending := rest }).finished job key) =
        afterAllRecv key v v₁ m win ∧
      WindowInv cfg.numWorkers (publishedRounds key v.log + 1)
        (fun w => responses w key v.log +
          if w ∈ v.window.present.qPullReqmeta.map (·.sender) then 1 else 0)
        (fun _ => False) win := by
  obtain ⟨-, -, -, hall⟩ := h.of_due hpend hu
  have hwin := h.window.present
  have hclosed : v.window.present.isPushFinished ≠ some true := by
    intro hopen
    obtain ⟨w, hw, hlt⟩ := hwin.opened.mp hopen
    rw [(hall w hw).1] at hlt
    omega
  obtain ⟨win, hdrain, hwin'⟩ := hwin.drain hN hclosed fun w hw => (hall w hw).1
  refine ⟨win, ?_, hwin'⟩
  have hfields : v₁.phase = v.phase ∧ v₁.log = v.log := by
    obtain ⟨stored, compressor, m', hpub', -⟩ :=
      publish_spec job key ({ v with pending := rest } : Slot α κ)
    rw [hpub] at hpub'
    obtain ⟨rfl, -⟩ := Prod.mk.inj hpub'
    exact ⟨rfl, rfl⟩
  have hfinished : ({ v with pending := rest } : Slot α κ).finished job key =
      ({ v₁ with window := win }, .published key (v₁.read m.1) m.2 ::
        v.window.present.qPullReqmeta.map fun req =>
          .pullResponse (v₁.response key m req.sender)) := by
    unfold Slot.finished
    rw [hpub]
    simp only [hdrain]
  rw [hfinished]
  refine (serve_pullResponses job key (v₁.response key m) (fun _ => rfl)
    v.window.present.qPullReqmeta
    ({ v₁ with window := win, log := .published key (v₁.read m.1) m.2 :: v₁.log })).trans ?_
  simp only [afterAllRecv, hfields.1, hfields.2]

/-- Whoever has an answer after an `ALL_RECV` has the one it has just given. -/
theorem Running.answered_of_allRecv [Zero α] (h : Running job key v) {u : Work α}
    {rest : List (Work α)} (hpend : v.pending = u :: rest) (hu : u.isDone = true) {v₁ : Slot α κ}
    {m : Ptr α × ℕ} {win : Window} {w : ℕ} {r : Response α}
    (hr : (afterAllRecv key v v₁ m win).phase w = .answered r) : r = v₁.response key m w := by
  obtain ⟨-, -, -, hall⟩ := h.of_due hpend hu
  have hr' : (if w ∈ v.window.present.qPullReqmeta.map (·.sender) then
      .answered (v₁.response key m w) else v.phase w) = Phase.answered r := hr
  split at hr'
  · exact (Phase.answered.inj hr').symm
  · have hw := h.lt_of_phase hr' (by simp)
    rcases (hall w hw).2.2 with hq | hq <;> rw [hq] at hr' <;> cases hr'

/-- The answers an `ALL_RECV` gives, one to each worker that waits. -/
theorem responses_answers {f : ℕ → Response α} (hf : ∀ w, (f w).sender = w ∧ (f w).key = key)
    {q : List KVMeta} (hq : (q.map (·.sender)).Nodup) (w : ℕ) (log : List (Event α)) :
    responses w key ((q.map fun req => Event.pullResponse (f req.sender)).reverse ++ log) =
      responses w key log + if w ∈ q.map (·.sender) then 1 else 0 := by
  have hcount : ((q.map fun req => Event.pullResponse (f req.sender)).reverse).countP
      (Event.isResponse w key) = (q.map (·.sender)).count w := by
    rw [List.countP_reverse, List.countP_map, List.count, List.countP_map]
    refine List.countP_congr fun req _ => ?_
    simp [Event.isResponse, hf]
  rw [responses, List.countP_append, hcount, List.Nodup.count hq, Nat.add_comm]
  rfl

/-- Those answers count for nothing else. -/
theorem answers_count (key : Key) (f : ℕ → Response α) (q : List KVMeta) (log : List (Event α)) :
    issuedRounds key ((q.map fun req => Event.pullResponse (f req.sender)).reverse ++ log) =
        issuedRounds key log ∧
      publishedRounds key ((q.map fun req => Event.pullResponse (f req.sender)).reverse ++ log) =
        publishedRounds key log ∧
      ∀ w, pulls w key ((q.map fun req => Event.pullResponse (f req.sender)).reverse ++ log) =
          pulls w key log ∧
        deliveries w key ((q.map fun req => Event.pullResponse (f req.sender)).reverse ++ log) =
          deliveries w key log := by
  have hmem : ∀ e ∈ (q.map fun req => Event.pullResponse (f req.sender)).reverse,
      ∃ r, e = Event.pullResponse r := by
    intro e he
    simp only [List.mem_reverse, List.mem_map] at he
    obtain ⟨req, -, rfl⟩ := he
    exact ⟨_, rfl⟩
  refine ⟨issuedRounds_append ?_, publishedRounds_append ?_, fun w =>
    ⟨pulls_append ?_, deliveries_append ?_⟩⟩ <;>
  · intro e he
    obtain ⟨r, rfl⟩ := hmem e he
    rfl

/-- The answers publish nothing. -/
theorem answers_results {f : ℕ → Response α} (q : List KVMeta) (log : List (Event α)) :
    results key ((q.map fun req => Event.pullResponse (f req.sender)).reverse ++ log) =
      results key log := by
  have hnone : (q.map fun req => Event.pullResponse (f req.sender)).filterMap
      (Event.result key) = [] := by
    rw [List.filterMap_map]
    exact List.filterMap_eq_nil_iff.mpr fun _ _ => rfl
  unfold results
  rw [List.reverse_append, List.filterMap_append, List.reverse_reverse, hnone, List.append_nil]

/-- What holds of each answer, whichever answers are given before it. -/
theorem always_answers {P : Event α → List (Event α) → Prop} {f : ℕ → Response α}
    (hf : ∀ w, (f w).sender = w ∧ (f w).key = key) {q : List KVMeta}
    (hq : (q.map (·.sender)).Nodup) {log : List (Event α)} (h : Always P log)
    (hP : ∀ w ∈ q.map (·.sender), ∀ past, issuedRounds key past = issuedRounds key log →
      publishedRounds key past = publishedRounds key log → pulls w key past = pulls w key log →
      responses w key past = responses w key log → results key past = results key log →
      P (.pullResponse (f w)) past) :
    Always P ((q.map fun req => Event.pullResponse (f req.sender)).reverse ++ log) := by
  refine h.append_map (fun req : KVMeta => Event.pullResponse (f req.sender)) q
    fun l₁ req l₂ heq => ?_
  subst heq
  rw [List.map_append, List.map_cons] at hq
  have hq₁ := (List.nodup_append.mp hq).1
  have hnot : req.sender ∉ l₁.map (·.sender) := by
    intro hmem
    exact (List.nodup_append.mp hq).2.2 _ hmem req.sender (by simp) rfl
  obtain ⟨hissued, hpublished, hother⟩ := answers_count key f l₁ log
  refine hP req.sender (by simp) _ hissued hpublished (hother _).1 ?_ (answers_results l₁ log)
  rw [responses_answers hf hq₁, if_neg hnot, Nat.add_zero]

/-- Everyone who waits is answered on time once the due round has its result. -/
theorem Running.onTime_answers (h : Running job key v) {u : Work α} {rest : List (Work α)}
    (hpend : v.pending = u :: rest) (hu : u.isDone = true) (content : Mem α) (len : ℕ)
    {f : ℕ → Response α} (hf : ∀ w, (f w).sender = w ∧ (f w).key = key) :
    Always (OnTime key) ((v.window.present.qPullReqmeta.map fun req =>
      Event.pullResponse (f req.sender)).reverse ++ .published key content len :: v.log) := by
  obtain ⟨hR, -, -, hall⟩ := h.of_due hpend hu
  have hbase : Always (OnTime key) (.published key content len :: v.log) :=
    always_cons.mpr ⟨(by rintro r ⟨⟩), h.onTime⟩
  refine always_answers hf h.window.present.nodup hbase
    fun w hmem past hi hp hpull hr _ r hr' => ?_
  obtain rfl := Event.pullResponse.inj hr'
  obtain ⟨hw, hphase⟩ := (h.window.present.waiting w).mp hmem
  have hans := (hall w hw).1
  have hpulled := (h.workers w hw).pulled
  rw [hphase] at hpulled
  simp only [issuedRounds_cons, publishedRounds_cons, pulls_cons, responses_cons, Event.isIssue,
    Event.isResult, Event.isPull, Event.isResponse, decide_true, if_true, Bool.false_eq_true,
    if_false, Nat.add_zero] at hi hp hpull hr
  simp only [Phase.waits] at hpulled
  rw [(hf w).1]
  omega

/-- An `ALL_RECV` opens the window of its round, and answers everyone who waits. -/
theorem Running.finished [Zero α] (h : Running job key v) {u : Work α} {rest : List (Work α)}
    (hpend : v.pending = u :: rest) (hu : u.isDone = true) (hN : 0 < cfg.numWorkers) :
    Running job key (serve job key (({ v with pending := rest }).finished job key)) := by
  obtain ⟨hR, hrest, hreq, hall⟩ := h.of_due hpend hu
  obtain ⟨stored, compressor, m, hpub, hstored, hcomp, hown⟩ :=
    publish_spec job key ({ v with pending := rest } : Slot α κ)
  obtain ⟨win, hserve, hwin⟩ := h.serve_finished hpend hu hN hpub
  have hnodup := h.window.present.nodup
  have hwaits : ∀ w, w ∈ v.window.present.qPullReqmeta.map (·.sender) ↔
      w < cfg.numWorkers ∧ v.phase w = .pullWait := h.window.present.waiting
  rw [hserve]
  unfold afterAllRecv
  simp only
  set q := v.window.present.qPullReqmeta with hq
  set D := publishedRounds key v.log with hD
  generalize hv₁ : ({ v with
    pending := rest, stored := stored, compressor := compressor, merged := some m } :
      Slot α κ) = v₁
  set log := (q.map fun req => Event.pullResponse (v₁.response key m req.sender)).reverse ++
    .published key (v₁.read m.1) m.2 :: v.log with hlog
  obtain ⟨hissued, hpublished, hother⟩ := answers_count key (v₁.response key m) q
    (.published key (v₁.read m.1) m.2 :: v.log)
  have hresp := fun w => responses_answers (f := v₁.response key m)
    (fun _ => ⟨rfl, rfl⟩) hnodup w (.published key (v₁.read m.1) m.2 :: v.log)
  rw [← hlog] at hissued hpublished
  simp only [← hlog] at hother hresp
  simp only [issuedRounds_cons, publishedRounds_cons, responses_cons, pulls_cons,
    deliveries_cons, Event.isIssue, Event.isResult, Event.isResponse, Event.isPull,
    Event.isDelivery, decide_true, if_true, Bool.false_eq_true, if_false, Nat.add_zero]
    at hissued hpublished hother hresp
  subst hv₁
  refine ⟨hstored h.stored, by rw [h.compressor]; exact hcomp ▸ Iff.rfl, fun w hw => ?_,
    fun w hw => ?_, fun w hw => ?_, h.request_lt, h.request_nodup, h.request_length, ?_, ?_,
    fun _ => rfl, fun m' hm' => ?_, fun w r hr => ?_, ?_⟩
  · show (if w ∈ q.map (·.sender) then _ else _) = _
    rw [if_neg (fun hmem => by have := ((hwaits w).mp hmem).1; omega)]
    exact h.idle w hw
  · have hold := h.workers w hw
    obtain ⟨hans, hround, hphase⟩ := hall w hw
    unfold WorkerInv at hold ⊢
    simp only [hissued, hpublished, hresp, hother]
    by_cases hmem : w ∈ q.map (·.sender)
    · rw [((hwaits w).mp hmem).2] at hold
      simp only [hmem, if_true]
      exact hold.publish_answer _
    · have hp : v.phase w = .pull := hphase.resolve_right fun hp => hmem ((hwaits w).mpr ⟨hw, hp⟩)
      rw [hp] at hold
      simp only [hmem, hp, if_false, Nat.add_zero]
      exact hold.publish hans
  · rcases hw with hw | hw
    · have hw' : (if w ∈ q.map (·.sender) then .answered _ else v.phase w) = Phase.pull := hw
      split at hw'
      · cases hw'
      · exact h.hashed w (.inl hw')
    · have hw' : 0 < pulls w key log := hw
      rw [(hother w).1] at hw'
      exact h.hashed w (.inr hw')
  · show rest.countP Work.isDone + publishedRounds key log = issuedRounds key log
    rw [hissued, hpublished, hrest, hR]
    omega
  · show WindowInv _ (publishedRounds key log) (fun w => responses w key log) _ win
    simp only [hpublished, hresp]
    refine hwin.congr_waits fun w hw => ?_
    by_cases hmem : w ∈ q.map (·.sender)
    · simp [hmem]
    · simp only [hmem, if_false, iff_false]
      exact fun hp => hmem ((hwaits w).mpr ⟨hw, hp⟩)
  · obtain rfl := Option.some.inj hm'
    exact hown
  · have hr' : (if w ∈ q.map (·.sender) then .answered _ else v.phase w) = Phase.answered r := hr
    split at hr'
    · obtain rfl := Phase.answered.inj hr'
      exact ⟨rfl, rfl, hown⟩
    · exact h.held w r hr'
  · exact h.onTime_answers hpend hu _ _ fun _ => ⟨rfl, rfl⟩

/-- What an `ALL_RECV` adds to the rounds. -/
theorem Running.rounds_finished [Zero α] (h : Running job key v) {u : Work α}
    {rest : List (Work α)} (hpend : v.pending = u :: rest) (hu : u.isDone = true)
    (hN : 0 < cfg.numWorkers) :
    let v' := serve job key (({ v with pending := rest }).finished job key)
    publishedRounds key v'.log = publishedRounds key v.log + 1 ∧
      issuedRounds key v'.log = issuedRounds key v.log := by
  intro v'
  obtain ⟨win, hserve, -⟩ := h.serve_finished hpend hu hN rfl
  have hv' : v' = _ := hserve
  rw [hv']
  obtain ⟨hissued, hpublished, -⟩ := answers_count key _ v.window.present.qPullReqmeta
    (.published key (_ : Mem α) (_ : ℕ) :: v.log)
  refine ⟨hpublished.trans ?_, hissued.trans ?_⟩
  · simp [Event.isResult]
  · simp [Event.isIssue]

/-! ### Every run of a slot

A slot in its rounds stays in its rounds, and a slot before them gets there only by the last
request that is collected.  So an invariant of the rounds has to be shown for the start and for
the steps in between only.
-/

/-- A slot some worker of which is past the initialisation is in its rounds. -/
theorem Inv.running_of (h : Inv job key v) {w : ℕ} (hp : (v.phase w).InRound) :
    Running job key v := by
  cases h with
  | running h => exact h
  | init h _ _ =>
      rcases Nat.lt_or_ge w cfg.numWorkers with hw | hw
      · rcases h.phase w hw with ⟨hq, -⟩ | ⟨hq, -⟩ <;> rw [hq] at hp <;> exact hp.elim
      · rw [h.idle w hw] at hp
        exact hp.elim
  | register h _ _ =>
      rcases Nat.lt_or_ge w cfg.numWorkers with hw | hw
      · rcases h.phase w hw with ⟨hq, -⟩ | ⟨hq, -⟩ <;> rw [hq] at hp <;> exact hp.elim
      · rw [h.idle w hw] at hp
        exact hp.elim

/-- Before its last init push a key is not stored, and nothing is published of it. -/
theorem Inv.of_initPush (h : Inv job key v) {w : ℕ} (hw : w < cfg.numWorkers)
    (hp : v.phase w = .initPush) : v.stored = none ∧ v.merged = none := by
  cases h with
  | init h hs _ => exact ⟨hs, h.fresh.merged⟩
  | register h _ _ => rcases h.phase w hw with ⟨hq, -⟩ | ⟨hq, -⟩ <;> rw [hq] at hp <;> cases hp
  | running h => exact (h.not_initPush hw hp).elim

/-- A registration comes after the init pushes, and only for a key that is compressed. -/
theorem Inv.of_registerPush (h : Inv job key v) {w : ℕ} (hw : w < cfg.numWorkers)
    (hp : v.phase w = .registerPush) : v.stored.isSome = true ∧ job.compressed key = true := by
  cases h with
  | init h _ _ => rcases h.phase w hw with ⟨hq, -⟩ | ⟨hq, -⟩ <;> rw [hq] at hp <;> cases hp
  | register h hs hc => exact ⟨hs, hc⟩
  | running h => exact (h.not_registerPush hw hp).elim

/-- What holds of a slot is kept by every step. -/
theorem Inv.step [Zero α] [Add α] (hN : 0 < cfg.numWorkers) {a : SlotMove} {v' : Slot α κ}
    (h : Inv job key v) (hstep : Step job key v a v') : Inv job key v' := by
  cases hstep with
  | init hw hp hs => exact h.initPushed hw hp
  | register hw hp => exact h.registered hw hp
  | push hw hp ha =>
      exact .running ((h.running_of (by rw [hp]; trivial)).pushed hw hp ha)
  | pullLater hw hp hreq ha =>
      exact .running ((h.running_of (by rw [hp]; trivial)).pullLater hw hp hreq ha)
  | pullNow hw hp ha hm =>
      exact .running ((h.running_of (by rw [hp]; trivial)).pullNow hw hp ha hm)
  | deliver hp =>
      exact .running ((h.running_of (by rw [hp]; trivial)).deliver hp)
  | @execute u rest hu =>
      cases h with
      | init h _ _ => rw [h.fresh.pending] at hu; cases hu
      | register h _ _ => rw [h.fresh.pending] at hu; cases hu
      | running h =>
          cases u with
          | first data len =>
              exact .running (h.stored' hu rfl rfl (received_isSome _ data len))
          | more data len =>
              exact .running (h.stored' hu rfl rfl (received_isSome _ data len))
          | done => exact .running (h.finished hu rfl hN)
  | @shuffle pending hs hperm =>
      cases h with
      | init h hs hc =>
          rw [h.fresh.pending, List.perm_nil] at hperm
          subst hperm
          refine .init { h with fresh := { h.fresh with pending := rfl } } hs hc
      | register h hs hc =>
          rw [h.fresh.pending, List.perm_nil] at hperm
          subst hperm
          refine .register { h with fresh := { h.fresh with pending := rfl } } hs hc
      | running h =>
          refine .running { h with done := ?_ }
          rw [← h.done]
          show pending.countP Work.isDone + _ = _
          rw [hperm.countP_eq]

theorem inv_init (hN : 0 < cfg.numWorkers) : Inv job key (Slot.init : Slot α κ) := by
  refine .init ⟨fun w _ => rfl, fun w _ => .inl ⟨rfl, by simp [Slot.init]⟩, by simp [Slot.init],
    by simp [Slot.init], hN, ?_⟩ rfl rfl
  exact ⟨rfl, rfl, fun _ => rfl, rfl, rfl, fun _ => rfl, fun _ => rfl, fun _ => rfl, rfl,
    always_nil⟩

/-- The workers are let go together, and before anything of the rounds has happened. -/
theorem Collecting.started {ready waiting : Phase α} {w : ℕ} (h : Collecting cfg key ready waiting v)
    (hne : ready ≠ waiting) (hwait : ¬waiting.InRound) (hw : w < cfg.numWorkers)
    (hp : v.phase w = ready) (stored : Option (Mem α)) (compressor : Option (Compressor α κ)) :
    let v' := serve job key (({ v.setPhase w waiting with
      stored := stored, compressor := compressor } : Slot α κ).collect cfg.numWorkers key w)
    Running job key v' → Fresh key v' ∧ v'.request = [] := by
  intro v' hrun
  by_cases hlen : v.request.length + 1 < cfg.numWorkers
  · have hv' : v' = { v.setPhase w waiting with
        stored := stored, compressor := compressor, request := v.request ++ [w] } :=
      serve_collect_join job key (by exact hlen)
    have hphase := (hrun.workers w hw).phase
    rw [hv'] at hphase
    refine absurd ?_ hwait
    simpa [setPhase] using hphase
  · have hfull := Nat.le_of_not_lt hlen
    have hnodup := (h.joined hne hw hp).nodup
    have hv' := serve_collect_full job key (v := { v.setPhase w waiting with
      stored := stored, compressor := compressor }) (by exact hfull) (by exact hnodup)
    show Fresh key (serve job key _) ∧ (serve job key _).request = []
    rw [hv']
    exact ⟨h.fresh.pushResponses (v.request ++ [w]) _ _ _ _, rfl⟩

/-- A step into the rounds is the last of the initialisation. -/
theorem Inv.started [Zero α] [Add α] {a : SlotMove} {v' : Slot α κ} (h : Inv job key v)
    (hstep : Step job key v a v') (hnot : ¬Running job key v) (hrun : Running job key v') :
    Fresh key v' ∧ v'.request = [] := by
  cases hstep with
  | @init w hw hp hs =>
      cases h with
      | running h => exact absurd h hnot
      | register h _ _ => rcases h.phase w hw with ⟨hq, -⟩ | ⟨hq, -⟩ <;> rw [hq] at hp <;> cases hp
      | init h _ _ =>
          unfold Slot.initPushed at hrun ⊢
          split at hrun
          · rw [if_pos ‹_›]
            exact h.started (by simp) (by simp [Phase.InRound]) hw hp _ _ hrun
          · rw [if_neg ‹_›]
            exact h.started (by simp) (by simp [Phase.InRound]) hw hp _ _ hrun
  | @register w c hw hp =>
      cases h with
      | running h => exact absurd h hnot
      | init h _ _ => rcases h.phase w hw with ⟨hq, -⟩ | ⟨hq, -⟩ <;> rw [hq] at hp <;> cases hp
      | register h _ _ =>
          exact h.started (by simp) (by simp [Phase.InRound]) hw hp v.stored _ hrun
  | push hw hp ha => exact absurd (h.running_of (by rw [hp]; trivial)) hnot
  | pullLater hw hp hreq ha => exact absurd (h.running_of (by rw [hp]; trivial)) hnot
  | pullNow hw hp ha hm => exact absurd (h.running_of (by rw [hp]; trivial)) hnot
  | deliver hp => exact absurd (h.running_of (by rw [hp]; trivial)) hnot
  | execute hu =>
      cases h with
      | running h => exact absurd h hnot
      | init h _ _ => rw [h.fresh.pending] at hu; cases hu
      | register h _ _ => rw [h.fresh.pending] at hu; cases hu
  | shuffle hs hperm =>
      cases h with
      | running h => exact absurd h hnot
      | init h hs hc =>
          rw [h.fresh.pending, List.perm_nil] at hperm
          subst hperm
          exact absurd { hrun with done := h.fresh.pending ▸ hrun.done } hnot
      | register h hs hc =>
          rw [h.fresh.pending, List.perm_nil] at hperm
          subst hperm
          exact absurd { hrun with done := h.fresh.pending ▸ hrun.done } hnot

/--
What holds when the rounds start, and is kept by the steps of a slot in its rounds, holds
of every slot in its rounds.
-/
theorem running_invariant [Zero α] [Add α] (hN : 0 < cfg.numWorkers)
    {guard : Slot α κ → SlotMove → Prop} {P : Slot α κ → Prop}
    (hstart : ∀ v, Running job key v → Fresh key v → v.request = [] → P v)
    (hkeep : ∀ v a v', Running job key v → guard v a → Step job key v a v' → P v → P v')
    (hr : Reachable (· = Slot.init) (Guarded guard (Step job key)) v) (hrun : Running job key v) :
    P v := by
  have hall : Inv job key v ∧ (Running job key v → P v) := by
    refine hr.invariant (P := fun v => Inv job key v ∧ (Running job key v → P v))
      (fun v hv => ?_) fun v a v' _ hv hstep => ?_
    · subst hv
      refine ⟨inv_init hN, fun hrun => ?_⟩
      exact (hrun.workers 0 hN).phase.elim
    · refine ⟨hv.1.step hN hstep.2, fun hrun' => ?_⟩
      by_cases hrun : Running job key v
      · exact hkeep v a v' hrun hstep.1 hstep.2 (hv.2 hrun)
      · obtain ⟨hfresh, hreq⟩ := hv.1.started hstep.2 hrun hrun'
        exact hstart v' hrun' hfresh hreq
  exact hall.2 hrun

end Slot

end DeepInc.Server
