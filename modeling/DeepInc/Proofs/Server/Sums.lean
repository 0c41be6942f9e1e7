/-
What a round sums up.

The workers push in any order, and the pushes of a round are executed in the order they arrived.
The first is copied into the stored buffer, and so removes what is left of the round before;
each of the others is added.

Of the round in progress, the pushes that were executed are in the stored buffer, as the sum of
what those workers pushed.  A sum does not depend on the order of its terms, so that the
`ALL_RECV` of a round, which is executed when all pushes were, finds the sum over all workers.

All that is asked of the elements is an addition that is commutative and associative.  For
integers of any width that is so; for numbers with a rounding it is not, and the result depends
on the order there.
-/
import DeepInc.Proofs.Server.Progress

namespace DeepInc.Server

open Outcome Transition

variable {α κ : Type} {cfg : Config} {codec : Codec α κ}

/-- What the workers pushed of element `j` in round `r`, summed up. -/
def Job.roundSum [AddCommMonoid α] (job : Job α κ cfg codec) (key : Key) (r j : ℕ) : α :=
  ∑ w ∈ Finset.range cfg.numWorkers, job.pushed w key r j

namespace Slot

/-! ### The buffer of a round

`Summing` is `InProgress` with what is in the buffer.  Each of its lemmas takes the lemma of
`Progress.lean` and adds a sum.
-/

variable [AddCommMonoid α] (job : Job α κ cfg codec) (key : Key)

/-- The buffer holds the sum of the pushes of the given workers in round `r`. -/
def Holds (v : Slot α κ) (r : ℕ) (ws : List ℕ) : Prop :=
  ∀ j < job.elements key, v.read (.stored key) j = (ws.map fun w => job.pushed w key r j).sum

/-- The round in progress: `ws` have pushed in it, and `k` of them are summed up. -/
structure Summing (v : Slot α κ) (ws : List ℕ) (k : ℕ) : Prop where
  le : k ≤ ws.length
  pending : v.pending = (pushWorks job key (publishedRounds key v.log) ws).drop k ++
    if publishedRounds key v.log < issuedRounds key v.log then [.done] else []
  complete : publishedRounds key v.log < issuedRounds key v.log →
    ws.Perm (List.range cfg.numWorkers)
  joined : publishedRounds key v.log = issuedRounds key v.log → ws = v.request
  sum : 0 < k → Holds job key v (publishedRounds key v.log) (ws.take k)
  /-- until the round starts, the buffer holds the last one -/
  last : k = 0 → ∀ r, publishedRounds key v.log = r + 1 →
    Holds job key v r (List.range cfg.numWorkers)

variable {job key} {v : Slot α κ}

theorem Holds.congr {v' : Slot α κ} {r : ℕ} {ws : List ℕ} (h : Holds job key v r ws)
    (hs : v'.stored = v.stored) : Holds job key v' r ws := by
  intro j hj
  rw [← h j hj]
  simp only [read, hs]

/-- The sum does not depend on the order of the workers. -/
theorem Holds.perm {r : ℕ} {ws ws' : List ℕ} (h : Holds job key v r ws) (hp : ws.Perm ws') :
    Holds job key v r ws' := by
  intro j hj
  rw [h j hj]
  exact (hp.map _).sum_eq

theorem Holds.roundSum {r : ℕ} (h : Holds job key v r (List.range cfg.numWorkers)) {j : ℕ}
    (hj : j < job.elements key) : v.read (.stored key) j = job.roundSum key r j := h j hj

namespace Summing

variable {ws : List ℕ} {k : ℕ}

theorem inProgress (h : Summing job key v ws k) : InProgress job key v ws k :=
  ⟨h.le, h.pending, h.complete, h.joined⟩

theorem of_inProgress (h : InProgress job key v ws k)
    (hsum : 0 < k → Holds job key v (publishedRounds key v.log) (ws.take k))
    (hlast : k = 0 → ∀ r, publishedRounds key v.log = r + 1 →
      Holds job key v r (List.range cfg.numWorkers)) : Summing job key v ws k :=
  ⟨h.le, h.pending, h.complete, h.joined, hsum, hlast⟩

/-- Nothing has been pushed yet. -/
theorem of_fresh (h : Fresh key v) (hreq : v.request = []) : Summing job key v [] 0 := by
  refine .of_inProgress (.of_fresh h hreq) (fun hpos => absurd hpos (by simp)) fun _ r hr => ?_
  rw [h.published] at hr
  cases hr

/-- What neither adds to the round nor takes from it keeps it. -/
theorem congr (h : Summing job key v ws k) {v' : Slot α κ} (hs : v'.stored = v.stored)
    (hp : v'.pending = v.pending) (hr : v'.request = v.request)
    (hD : publishedRounds key v'.log = publishedRounds key v.log)
    (hR : issuedRounds key v'.log = issuedRounds key v.log) : Summing job key v' ws k := by
  refine .of_inProgress (h.inProgress.congr hp hr hD hR) (fun hpos => ?_) fun hk r hr' => ?_
  · rw [hD]
    exact (h.sum hpos).congr hs
  · rw [hD] at hr'
    exact (h.last hk r hr').congr hs

/-- A push joins the round in progress. -/
theorem pushed (h : Summing job key v ws k) (hrun : Running job key v) {w : ℕ}
    (hfifo : cfg.enableSchedule = false) (hw : w < cfg.numWorkers) (hp : v.phase w = .push)
    {pending : List (Work α)} (ha : Appends cfg v.pending (v.pushWork job key w) pending) :
    Summing job key (serve job key
      ((v.setPhase w .pushWait).pushed cfg.numWorkers key w pending)) (ws ++ [w]) k := by
  obtain ⟨hD, -⟩ := rounds_pushed job key v w pending
  have hstored : (serve job key ((v.setPhase w .pushWait).pushed cfg.numWorkers key w
      pending)).stored = v.stored := by
    rw [serve_pushed]
  refine .of_inProgress (h.inProgress.pushed hrun hfifo hw hp ha) (fun hpos => ?_) fun hk r hr => ?_
  · rw [List.take_append_of_le_length h.le, hD]
    exact (h.sum hpos).congr hstored
  · rw [hD] at hr
    exact (h.last hk r hr).congr hstored

/-- A push of a key without compressor is summed up. -/
theorem executed (h : Summing job key v ws k) (hcomp : v.compressor = none) {u : Work α}
    {rest : List (Work α)} (hu : v.pending = u :: rest) (hdone : u.isDone = false) :
    Summing job key (serve job key (({ v with pending := rest }).executed job key u)) ws (k + 1) ∧
      (k = 0 → ∃ data len, u = .first data len) := by
  obtain ⟨hk, hnext, heq, hfirst⟩ := h.inProgress.executed hu hdone
  refine ⟨?_, hfirst⟩
  rw [heq] at hnext ⊢
  refine .of_inProgress hnext (fun _ j hj => ?_) fun hc => absurd hc (by simp)
  refine read_store (fun w j => job.pushed w key (publishedRounds key v.log) j)
    (v := { v with pending := rest }) hk (fun hpos => h.sum hpos) (fun j _ => ?_) hj
  unfold received
  rw [hcomp]

/-- The `ALL_RECV` of a round finds the sum of its pushes. -/
theorem due (h : Summing job key v ws k) (hN : 0 < cfg.numWorkers) {u : Work α}
    {rest : List (Work α)} (hu : v.pending = u :: rest) (hdone : u.isDone = true) :
    rest = [] ∧ Holds job key v (publishedRounds key v.log) (List.range cfg.numWorkers) := by
  obtain ⟨hrest, hk, hperm⟩ := h.inProgress.due hu hdone
  have hlen : ws.length = cfg.numWorkers := by simpa using hperm.length_eq
  have hsum := h.sum (by omega)
  rw [hk, List.take_length] at hsum
  exact ⟨hrest, hsum.perm hperm⟩

/-- After the `ALL_RECV` a new round is to start. -/
theorem finished (h : Summing job key v ws k) (hrun : Running job key v)
    (hcomp : v.compressor = none) (hN : 0 < cfg.numWorkers) {u : Work α} {rest : List (Work α)}
    (hu : v.pending = u :: rest) (hdone : u.isDone = true) :
    Summing job key (serve job key (({ v with pending := rest }).finished job key)) [] 0 := by
  obtain ⟨rfl, hholds⟩ := h.due hN hu hdone
  obtain ⟨hD', -⟩ := hrun.rounds_finished hu hdone hN
  obtain ⟨win, hserve, -⟩ := hrun.serve_finished hu hdone hN (publish_of_uncompressed hcomp)
  refine .of_inProgress (h.inProgress.finished hrun hN hu hdone)
    (fun hpos => absurd hpos (by simp)) fun _ r hr => ?_
  rw [hD'] at hr
  obtain rfl := Nat.succ.inj hr
  rw [hserve]
  exact hholds.congr rfl

/-- Every step of a slot in its rounds leaves a round in progress. -/
theorem step (h : Summing job key v ws k) (hrun : Running job key v) (hN : 0 < cfg.numWorkers)
    (hfifo : cfg.enableSchedule = false) (hcomp : v.compressor = none) {a : SlotMove}
    {v' : Slot α κ} (hstep : Step job key v a v') : ∃ ws' k', Summing job key v' ws' k' := by
  cases hstep with
  | init hw hp hs => exact (hrun.not_initPush hw hp).elim
  | register hw hp => exact (hrun.not_registerPush hw hp).elim
  | push hw hp ha => exact ⟨_, k, h.pushed hrun hfifo hw hp ha⟩
  | @pullLater w req hw hp hreq ha =>
      refine ⟨ws, k, h.congr rfl rfl rfl ?_ ?_⟩ <;> rw [serve_pullLater] <;>
        simp [Event.isResult, Event.isIssue]
  | @pullNow w m hw hp ha hm =>
      refine ⟨ws, k, h.congr ?_ ?_ ?_ ?_ ?_⟩ <;> rw [serve_pullNow] <;>
        simp [Event.isResult, Event.isIssue]
  | @execute u rest hu =>
      cases hdone : u.isDone with
      | false => exact ⟨ws, k + 1, (h.executed hcomp hu hdone).1⟩
      | true =>
          cases u with
          | done => exact ⟨[], 0, h.finished hrun hcomp hN hu rfl⟩
          | _ => cases hdone
  | deliver hp =>
      refine ⟨ws, k, h.congr rfl rfl rfl ?_ ?_⟩ <;>
        simp [observe, setPhase, Event.isResult, Event.isIssue]
  | shuffle hs hperm =>
      rw [hfifo] at hs
      cases hs

end Summing

/-- In every run, a round is in progress. -/
theorem Running.summing (hN : 0 < cfg.numWorkers) (hfifo : cfg.enableSchedule = false)
    (hc : job.compressed key = false) {guard : Slot α κ → SlotMove → Prop}
    (hr : Reachable (· = Slot.init) (Guarded guard (Step job key)) v) (hrun : Running job key v) :
    ∃ ws k, Summing job key v ws k := by
  refine running_invariant (P := fun v => ∃ ws k, Summing job key v ws k) hN
    (fun v _ hfresh hreq => ⟨[], 0, .of_fresh hfresh hreq⟩)
    (fun v a v' hrun _ hstep hv => ?_) hr hrun
  obtain ⟨ws, k, h⟩ := hv
  exact h.step hrun hN hfifo (hrun.compressor_eq_none hc) hstep

end Slot

/-! ### The sum an `ALL_RECV` finds -/

variable [AddCommMonoid α]

/--
**An `ALL_RECV` finds the sum of its round.** While a thread has the `ALL_RECV` of a round in
hand, the stored buffer of its key is the sum of what all workers pushed in that round; in any
two runs in which the same pushes arrive, it is the same.

The order in which the pushes arrive, the threads and the other keys do not matter.
-/
theorem allRecv_finds_roundSum (job : Job α κ cfg codec) (hcfg : cfg.RunsSync)
    (hfifo : cfg.enableSchedule = false) (hc : ∀ key ∈ job.keys, job.compressed key = false)
    {x : World α κ} (hx : World.Reached job x) {i : ℕ} {m : EngineMessage α}
    (hm : x.server.hand i = some m) (hops : m.ops = .allRecv) :
    (∀ j < job.elements m.key,
      x.server.read (.stored m.key) j = job.roundSum m.key (publishedRounds m.key x.log) j) ∧
    ∀ x' i' m', World.Reached job x' → x'.server.hand i' = some m' → m'.ops = .allRecv →
      m'.key = m.key → publishedRounds m.key x'.log = publishedRounds m.key x.log →
      ∀ j < job.elements m.key,
        x'.server.read (.stored m.key) j = x.server.read (.stored m.key) j := by
  have hsum : ∀ {x : World α κ} {i : ℕ} {m : EngineMessage α}, World.Reached job x →
      x.server.hand i = some m → m.ops = .allRecv → ∀ j < job.elements m.key,
        x.server.read (.stored m.key) j = job.roundSum m.key (publishedRounds m.key x.log) j := by
    intro x i m hx hm hops j hj
    have hinv := World.inv_of_reached hcfg hx
    obtain ⟨hk, -, -⟩ := hinv.sound.placed i m (by simp [State.waiting, hm])
    obtain ⟨rest, hpending, -⟩ := hinv.sound.view_dropHand hm (fun u => x.phase u m.key)
      (fun u => x.round u m.key) (x.log.filter fun e => e.key = m.key)
    have hwork : m.work = .done := by simp [EngineMessage.work, hops]
    have hrun : Slot.Running job m.key (x.view m.key) := by
      cases hinv.slots m.key hk with
      | running h => exact h
      | init h _ _ => exact absurd (hpending.symm.trans h.fresh.pending) (by simp)
      | register h _ _ => exact absurd (hpending.symm.trans h.fresh.pending) (by simp)
    obtain ⟨ws, k, h⟩ := hrun.summing hcfg.numWorkers hfifo (hc m.key hk)
      (World.slot_reachable hcfg hk (fun _ _ => True) (fun _ _ _ _ _ _ => trivial)
        (World.guarded_of_reached hx))
    obtain ⟨-, hholds⟩ := h.due hcfg.numWorkers (u := m.work) hpending (by rw [hwork]; rfl)
    have hlog : publishedRounds m.key (x.view m.key).log = publishedRounds m.key x.log :=
      publishedRounds_ofKey x.log
    rw [hlog] at hholds
    exact hholds.roundSum hj
  refine ⟨hsum hx hm hops, fun x' i' m' hx' hm' hops' hkey hround j hj => ?_⟩
  have h' := hsum hx' hm' hops' j (by rwa [hkey])
  rw [hkey, hround] at h'
  rw [h', hsum hx hm hops j hj]

/-- Two workers push 1 and 2 before the `ALL_RECV` is popped. -/
theorem allRecv_finds_roundSum_two : ∃ x : World ℤ Unit, World.Reached (singleKey 2) x ∧
    x.server.read (.stored 0) 0 = (singleKey 2).roundSum 0 (publishedRounds 0 x.log) 0 := by
  have hrun : ((World.init (defaultConfig 2)).after (singleKey 2) (fun _ _ => true)
      [.request 0 0, .request 1 0,
      .request 1 0, .request 0 0, .pop 0, .execute 0, .pop 0, .execute 0, .pop 0]).map (fun x =>
        (x.server.hand 0).map fun m => (m.ops, m.key)) = some (some (.allRecv, 0)) := by
    decide +kernel
  obtain ⟨x, hx, hhand⟩ := Option.map_eq_some_iff.mp hrun
  obtain ⟨m, hm, hmops⟩ := Option.map_eq_some_iff.mp hhand
  obtain ⟨hops, hkey⟩ := Prod.mk.inj hmops
  have hreached := World.reached_after hx
  refine ⟨x, hreached, ?_⟩
  have := (allRecv_finds_roundSum (singleKey 2) ⟨rfl, rfl, by decide, by decide⟩ rfl
    (fun _ _ => rfl) hreached hm hops).1 0 (by rw [hkey]; decide)
  rwa [hkey] at this

end DeepInc.Server
