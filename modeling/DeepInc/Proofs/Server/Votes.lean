/-
Onebit without scaling is a majority vote.

Each worker compresses its gradient to the signs of its elements, and pushes them.  The server
decompresses every push to a vector of ones and minus ones, adds these up, and compresses the
sum.  What it publishes has the sign of the sum, which is negative if more than half of the
signs are.  A tie is published as positive, as zero is.

The argument is that of the sums with one thing in between.  The buffer of the round in progress
counts the votes of the pushes that were executed, for every element; a push that is executed is
decompressed first, and adds one vote of its worker.

Compression and decompression go through the words of the buffer, and nothing is asked of the
number of workers, of the length of the gradient or of the order of arrival.  The lengths need
not be a multiple of a word.
-/
import DeepInc.Proofs.Compressor.Onebit
import DeepInc.Proofs.Server.Results
import Mathlib.Tactic.Linarith

namespace DeepInc.Server

open DeepInc.Compressor Outcome Transition

/-! ### Counting -/

section Counting

variable {K : Type} [Field K] [LinearOrder K]

/-- The vote of an entry; a zero votes like a positive one. -/
def vote (x : K) : K := if x < 0 then -1 else 1

/-- What `n` voters decide; a tie is decided like a positive vote. -/
def majority (n : ℕ) (x : ℕ → K) : K :=
  if n < 2 * (List.range n).countP (fun u => x u < 0) then -1 else 1

/-- The sum of the votes. -/
theorem sum_votes (x : ℕ → K) (us : List ℕ) : (us.map fun u => vote (x u)).sum =
    us.length - 2 * (us.countP (fun u => x u < 0) : K) := by
  induction us with
  | nil => simp
  | cons u us ih =>
      rw [List.map_cons, List.sum_cons, ih, List.countP_cons, List.length_cons]
      unfold vote
      by_cases hneg : x u < 0
      · simp only [hneg, decide_true, if_true]
        push_cast
        ring
      · simp only [hneg, decide_false, if_false, Bool.false_eq_true]
        push_cast
        ring

variable [IsStrictOrderedRing K]

/-- **The sign of the sum is the majority.** -/
theorem vote_sum_votes (n : ℕ) (x : ℕ → K) :
    vote ((List.range n).map fun u => vote (x u)).sum = majority n x := by
  unfold majority
  rw [sum_votes, List.length_range]
  unfold vote
  refine if_congr ?_ rfl rfl
  rw [sub_neg]
  exact_mod_cast Iff.rfl

end Counting

/-! ### A key of signs

`Voting` is `InProgress` with what is in the buffer, as `Summing` is for keys without a
compressor.  The compressor of the key is the same in every round, since onebit has no state.
-/

section Codec

variable {w : ℕ} {K : Type} [Field K]

theorem asScalar_sum (cs : List (Cell w K)) : cs.sum.asScalar = (cs.map Cell.asScalar).sum :=
  map_list_sum (AddMonoidHom.snd (BitVec w) K) cs

variable [LinearOrder K] (useScale : Bool)
  (c : Compressor (Cell w K) Unit) (len : ℕ) (dtype : DataType)

theorem decompress_onebitCodec (data : Mem (Cell w K)) :
    ((onebitCodec w K useScale).decompress c data len dtype).buf = fun n =>
      if n < Onebit.chunks w len * w then
        .scalar (Onebit.decompress (scalars c.buf) data len n)
      else c.buf n := rfl

theorem compress_onebitCodec (grad : Mem (Cell w K)) :
    (onebitCodec w K useScale).compress c grad len dtype =
      ({ c with buf := (Onebit.compress useScale c.buf (scalars grad) (len / sizeofIndex w)).1 },
        grad, (Onebit.compress useScale c.buf (scalars grad) (len / sizeofIndex w)).2) := rfl

end Codec

section Signs

variable {K : Type} [Field K] [LinearOrder K] {cfg : Config} {dtype : DataType}

/--
A key whose workers push gradients of type `dtype`, compressed by onebit without scaling:
worker `u` has `grad u r` in round `r`.
-/
structure Job.PushesSigns
    (job : Job (Cell (scalarBits dtype) K) Unit cfg (onebitCodec (scalarBits dtype) K false))
    (key : Key) (grad : ℕ → ℕ → Mem K) : Prop where
  compressed : job.compressed key = true
  dtype : job.dtype key = dtype
  pushed : ∀ u < cfg.numWorkers, ∀ r, ∃ buf,
    (job.pushed u key r, job.pushedLen u key r) =
      Onebit.compress false buf (grad u r) (job.elements key)

namespace Slot

variable {job : Job (Cell (scalarBits dtype) K) Unit cfg (onebitCodec (scalarBits dtype) K false)}
  {key : Key} {grad : ℕ → ℕ → Mem K}

/-- A push is decompressed to the votes of its worker. -/
theorem received_votes (hjob : job.PushesSigns key grad)
    {v : Slot (Cell (scalarBits dtype) K) Unit} (hcomp : v.compressor.isSome = true) {u : ℕ}
    (hu : u < cfg.numWorkers) (r : ℕ) {j : ℕ} (hj : j < job.elements key) :
    (v.received job key (job.pushed u key r) (job.pushedLen u key r)).2 j =
      Cell.scalar (vote (grad u r j)) := by
  obtain ⟨c, hc⟩ := Option.isSome_iff_exists.mp hcomp
  obtain ⟨buf, hpushed⟩ := hjob.pushed u hu r
  have hdata := congrArg Prod.fst hpushed
  have hlen := congrArg Prod.snd hpushed
  simp only at hdata hlen
  have hw := eight_le_scalarBits dtype
  have hlt : j < Onebit.chunkLen (scalarBits dtype) (job.elements key) * scalarBits dtype :=
    Nat.lt_of_lt_of_le hj (Onebit.le_chunkLen (by omega) _)
  unfold received
  rw [hc, hdata, hlen]
  simp only [decompress_onebitCodec]
  rw [Onebit.chunks_compress hw, if_pos hlt, Onebit.decompress_compress hw _ hj]
  rfl

/-- What round `r` published decompresses to the majority of its gradients. -/
def Decides (job : Job (Cell (scalarBits dtype) K) Unit cfg (onebitCodec (scalarBits dtype) K false))
    (key : Key) (grad : ℕ → ℕ → Mem K) (r : ℕ) (p : Mem (Cell (scalarBits dtype) K) × ℕ) : Prop :=
  ∀ dst : Mem K, ∀ j < job.elements key,
    Onebit.decompress dst p.1 p.2 j = majority cfg.numWorkers fun u => grad u r j

/-- A slot whose stored buffer counts the votes of the round. -/
structure Voting (job : Job (Cell (scalarBits dtype) K) Unit cfg (onebitCodec (scalarBits dtype) K false))
    (key : Key) (grad : ℕ → ℕ → Mem K) (v : Slot (Cell (scalarBits dtype) K) Unit) (ws : List ℕ)
    (k : ℕ) : Prop where
  progress : InProgress job key v ws k
  counted : 0 < k → ∀ j < job.elements key, v.read (.stored key) j =
    ((ws.take k).map fun u => Cell.scalar (vote (grad u (publishedRounds key v.log) j))).sum
  decided : ∀ r p, (results key v.log)[r]? = some p → Decides job key grad r p

variable {v : Slot (Cell (scalarBits dtype) K) Unit} {ws : List ℕ} {k : ℕ}

/-- Everyone whose push is pending or executed is a worker. -/
theorem InProgress.lt_numWorkers (h : InProgress job key v ws k) (hrun : Running job key v) {u : ℕ}
    (hu : u ∈ ws) : u < cfg.numWorkers := by
  rcases Nat.lt_or_ge (publishedRounds key v.log) (issuedRounds key v.log) with hlt | hge
  · exact List.mem_range.mp ((h.complete hlt).mem_iff.mp hu)
  · rw [h.joined (Nat.le_antisymm hrun.published_le hge)] at hu
    exact hrun.request_lt u hu

namespace Voting

theorem of_fresh (h : Fresh key v) (hreq : v.request = []) : Voting job key grad v [] 0 := by
  refine ⟨.of_fresh h hreq, fun hpos => absurd hpos (by simp), fun r p hp => ?_⟩
  have hlen : (results key v.log).length = 0 := by rw [length_results, h.published]
  rw [List.eq_nil_of_length_eq_zero hlen] at hp
  simp at hp

/-- What neither adds to the round nor takes from it keeps it. -/
theorem congr (h : Voting job key grad v ws k) {v' : Slot (Cell (scalarBits dtype) K) Unit}
    {ws' : List ℕ} (hp : InProgress job key v' ws' k) (htake : ws'.take k = ws.take k)
    (hs : v'.stored = v.stored) (hresults : results key v'.log = results key v.log) :
    Voting job key grad v' ws' k := by
  have hD : publishedRounds key v'.log = publishedRounds key v.log := by
    rw [← length_results, hresults, length_results]
  refine ⟨hp, fun hpos j hj => ?_, fun r p hr => h.decided r p (hresults ▸ hr)⟩
  rw [htake, hD, ← h.counted hpos j hj]
  simp only [read, hs]

/-- A push joins the round in progress. -/
theorem pushed (h : Voting job key grad v ws k) (hrun : Running job key v) {w : ℕ}
    (hfifo : cfg.enableSchedule = false) (hw : w < cfg.numWorkers) (hp : v.phase w = .push)
    {pending : List (Work (Cell (scalarBits dtype) K))}
    (ha : Appends cfg v.pending (v.pushWork job key w) pending) :
    Voting job key grad (serve job key
      ((v.setPhase w .pushWait).pushed cfg.numWorkers key w pending)) (ws ++ [w]) k := by
  refine h.congr (h.progress.pushed hrun hfifo hw hp ha)
    (List.take_append_of_le_length h.progress.le) ?_ ?_
  · rw [serve_pushed]
  · rw [serve_pushed]
    simp only
    split <;> simp [results_cons, Event.result]

/-- A push is counted. -/
theorem executed (h : Voting job key grad v ws k) (hjob : job.PushesSigns key grad)
    (hrun : Running job key v) {u : Work (Cell (scalarBits dtype) K)}
    {rest : List (Work (Cell (scalarBits dtype) K))} (hu : v.pending = u :: rest)
    (hdone : u.isDone = false) :
    Voting job key grad (serve job key (({ v with pending := rest }).executed job key u)) ws
      (k + 1) := by
  obtain ⟨hk, hnext, heq, -⟩ := h.progress.executed hu hdone
  have hworker := h.progress.lt_numWorkers hrun (List.getElem_mem hk)
  rw [heq] at hnext ⊢
  refine ⟨hnext, fun _ j hj => ?_, h.decided⟩
  refine read_store (fun u j => Cell.scalar (vote (grad u (publishedRounds key v.log) j)))
    (v := { v with pending := rest }) hk (fun hpos => h.counted hpos) (fun j hj => ?_) hj
  exact received_votes hjob (v := { v with pending := rest })
    (hrun.compressor.mp hjob.compressed) hworker _ hj

variable [IsStrictOrderedRing K]

/-- The `ALL_RECV` publishes the majority. -/
theorem finished (h : Voting job key grad v ws k) (hjob : job.PushesSigns key grad)
    (hrun : Running job key v) (hN : 0 < cfg.numWorkers) {u : Work (Cell (scalarBits dtype) K)}
    {rest : List (Work (Cell (scalarBits dtype) K))} (hu : v.pending = u :: rest)
    (hdone : u.isDone = true) :
    Voting job key grad (serve job key (({ v with pending := rest }).finished job key)) [] 0 := by
  obtain ⟨c, hc⟩ := Option.isSome_iff_exists.mp (hrun.compressor.mp hjob.compressed)
  obtain ⟨-, hk, hperm⟩ := h.progress.due hu hdone
  have hlen : ws.length = cfg.numWorkers := by simpa using hperm.length_eq
  set stored : Mem (Cell (scalarBits dtype) K) := v.stored.getD fun _ => 0 with hstored
  set p := Onebit.compress false c.buf (scalars stored) (job.elements key) with hp
  have hpub : ({ v with pending := rest } : Slot _ Unit).publish job key =
      ({ v with
        pending := rest
        compressor := some { c with buf := p.1 }
        stored := some stored
        merged := some (.buf key, p.2) }, .buf key, p.2) := by
    unfold publish
    rw [hc]
    simp only [compress_onebitCodec, sizeofIndex_scalarBits, hp, Job.elements, hjob.dtype, hstored]
  have hdecides : Decides job key grad (publishedRounds key v.log) p := by
    intro dst j hj
    have hsum := h.counted (by omega) j hj
    rw [hk, List.take_length, (hperm.map _).sum_eq] at hsum
    have hvotes : scalars stored j = ((List.range cfg.numWorkers).map fun u =>
        vote (grad u (publishedRounds key v.log) j)).sum := by
      show Cell.asScalar (v.read (.stored key) j) = _
      rw [hsum, asScalar_sum, List.map_map]
      rfl
    rw [hp, Onebit.decompress_compress (eight_le_scalarBits dtype) _ hj, ← vote_sum_votes, ← hvotes]
    rfl
  obtain ⟨win, hserve, -⟩ := hrun.serve_finished hu hdone hN hpub
  have hresults : results key (serve job key (({ v with pending := rest }).finished job key)).log =
      results key v.log ++ [(p.1, p.2)] := by
    rw [hserve]
    simp only [afterAllRecv]
    rw [answers_results, results_cons]
    simp [Event.result, read]
  refine ⟨h.progress.finished hrun hN hu hdone, fun hpos => absurd hpos (by simp), fun r q hq => ?_⟩
  rw [hresults] at hq
  rcases Nat.lt_or_ge r (results key v.log).length with hlt | hge
  · rw [List.getElem?_append_left hlt] at hq
    exact h.decided r q hq
  · obtain ⟨hr, hq⟩ : r = (results key v.log).length ∧ (p.1, p.2) = q := by
      rw [List.getElem?_append_right hge] at hq
      obtain ⟨hlt, hq⟩ := List.getElem?_eq_some_iff.mp hq
      rw [List.length_singleton] at hlt
      exact ⟨by omega, by simpa using hq⟩
    rw [hr, length_results, ← hq]
    exact hdecides

/-- Every step of a slot in its rounds leaves a vote in progress. -/
theorem step (h : Voting job key grad v ws k) (hjob : job.PushesSigns key grad)
    (hrun : Running job key v) (hN : 0 < cfg.numWorkers) (hfifo : cfg.enableSchedule = false)
    {a : SlotMove} {v' : Slot (Cell (scalarBits dtype) K) Unit} (hstep : Step job key v a v') :
    ∃ ws' k', Voting job key grad v' ws' k' := by
  cases hstep with
  | init hw hp hs => exact (hrun.not_initPush hw hp).elim
  | register hw hp => exact (hrun.not_registerPush hw hp).elim
  | push hw hp ha => exact ⟨_, k, h.pushed hrun hfifo hw hp ha⟩
  | @pullLater w req hw hp hreq ha =>
      refine ⟨ws, k, h.congr (h.progress.congr rfl rfl ?_ ?_) rfl rfl ?_⟩ <;> rw [serve_pullLater] <;>
        simp [Event.isResult, Event.isIssue, results_cons, Event.result]
  | @pullNow w m hw hp ha hm =>
      refine ⟨ws, k, h.congr (h.progress.congr ?_ ?_ ?_ ?_) rfl ?_ ?_⟩ <;> rw [serve_pullNow] <;>
        simp [Event.isResult, Event.isIssue, results_cons, Event.result]
  | @execute u rest hu =>
      cases hdone : u.isDone with
      | false => exact ⟨ws, k + 1, h.executed hjob hrun hu hdone⟩
      | true =>
          cases u with
          | done => exact ⟨[], 0, h.finished hjob hrun hN hu rfl⟩
          | _ => cases hdone
  | deliver hp =>
      refine ⟨ws, k, h.congr (h.progress.congr rfl rfl ?_ ?_) rfl rfl ?_⟩ <;>
        simp [observe, setPhase, Event.isResult, Event.isIssue, results_cons, Event.result]
  | shuffle hs hperm =>
      rw [hfifo] at hs
      cases hs

end Voting

end Slot

/-! ### The votes of a run -/

variable [IsStrictOrderedRing K]

/--
**What a round publishes is the majority vote of its workers.**  Whatever the order in which
the compressed gradients of round `r` arrive, what the server publishes for it decompresses
to `-1` where more than half of the workers had a negative entry, and to `1` elsewhere.
-/
theorem published_decompresses_to_majority
    (job : Job (Cell (scalarBits dtype) K) Unit cfg (onebitCodec (scalarBits dtype) K false))
    (hcfg : cfg.RunsSync) (hfifo : cfg.enableSchedule = false) {key : Key} (hk : key ∈ job.keys)
    {grad : ℕ → ℕ → Mem K} (hjob : job.PushesSigns key grad)
    {x : World (Cell (scalarBits dtype) K) Unit} (hx : World.Reached job x) {r : ℕ}
    {p : Mem (Cell (scalarBits dtype) K) × ℕ} (hp : (results key x.log)[r]? = some p)
    (dst : Mem K) {j : ℕ} (hj : j < job.len key / getDataTypeLength dtype) :
    Onebit.decompress dst p.1 p.2 j =
      if cfg.numWorkers < 2 * (List.range cfg.numWorkers).countP (fun u => grad u r j < 0)
        then -1 else 1 := by
  have hinv := World.inv_of_reached hcfg hx
  have hlog : results key (x.view key).log = results key x.log := results_ofKey x.log
  rw [← hlog] at hp
  have hfresh : ¬Slot.Fresh key (x.view key) := by
    intro h
    have hlen : (results key (x.view key).log).length = 0 := by rw [length_results, h.published]
    rw [List.eq_nil_of_length_eq_zero hlen] at hp
    simp at hp
  cases hinv.slots key hk with
  | init h _ _ => exact absurd h.fresh hfresh
  | register h _ _ => exact absurd h.fresh hfresh
  | running hrun =>
      obtain ⟨ws, k, h⟩ : ∃ ws k, Slot.Voting job key grad (x.view key) ws k := by
        refine Slot.running_invariant (P := fun v => ∃ ws k, Slot.Voting job key grad v ws k)
          hcfg.numWorkers (fun v _ hfresh hreq => ⟨[], 0, .of_fresh hfresh hreq⟩)
          (fun v a v' hrun _ hstep hv => ?_)
          (World.slot_reachable hcfg hk (fun _ _ => True) (fun _ _ _ _ _ _ => trivial)
            (World.guarded_of_reached hx)) hrun
        obtain ⟨ws, k, h⟩ := hv
        exact h.step hjob hrun hcfg.numWorkers hfifo hstep
      exact h.decided r p hp dst j (by rwa [Job.elements, hjob.dtype])

end Signs

/-- Three workers, of which `2 - j` have a negative entry `j`. -/
def voteKey : Job (Cell (scalarBits .float32) ℚ) Unit (defaultConfig 3)
    (onebitCodec (scalarBits .float32) ℚ false) :=
  { signKey 3 with
    pushed := fun u _ _ =>
      (Onebit.compress false (fun _ => 0) (fun j => if u + j < 2 then -1 else 0) 2).1 }

/-- The first entry is voted down, the second one is not. -/
theorem published_decompresses_to_majority_three :
    ∃ (x : World (Cell (scalarBits .float32) ℚ) Unit) (p : Mem (Cell (scalarBits .float32) ℚ) × ℕ),
      World.Reached voteKey x ∧ (results 0 x.log)[0]? = some p ∧
      Onebit.decompress (fun _ => 0) p.1 p.2 0 = -1 ∧ Onebit.decompress (fun _ => 0) p.1 p.2 1 = 1 := by
  have hrun : ((World.init (defaultConfig 3)).after voteKey (fun _ _ => true)
      [.request 0 0, .request 1 0, .request 2 0, .request 2 0, .request 0 0, .request 1 0,
        .request 1 0, .request 2 0, .request 0 0, .pop 0, .execute 0, .pop 0, .execute 0,
        .pop 0, .execute 0, .pop 0, .execute 0]).map (fun x => ((results 0 x.log)[0]?).isSome) =
      some true := by
    decide +kernel
  obtain ⟨x, hx, hsome⟩ := Option.map_eq_some_iff.mp hrun
  obtain ⟨p, hp⟩ := Option.isSome_iff_exists.mp hsome
  have hjob : voteKey.PushesSigns 0 fun u _ j => if u + j < 2 then (-1 : ℚ) else 0 :=
    ⟨rfl, rfl, fun _ _ _ => ⟨fun _ => 0, rfl⟩⟩
  have hmajority := fun j (hj : j < 2) => published_decompresses_to_majority voteKey
    ⟨rfl, rfl, by decide, by decide⟩ rfl (show (0 : Key) ∈ voteKey.keys by simp [voteKey, signKey])
    hjob (World.reached_after hx) hp (fun _ => 0) (j := j) hj
  exact ⟨x, p, World.reached_after hx, hp, (hmajority 0 (by decide)).trans (by decide),
    (hmajority 1 (by decide)).trans (by decide)⟩

end DeepInc.Server
