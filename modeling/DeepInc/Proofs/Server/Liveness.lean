/-
Every round comes to an end.

Safety says what an answer holds; that there will be one takes a scheduler that does not
starve anybody.  In a run that is fair to the engine threads and to the workers of a key,
every round of the key is completed by all its workers, whatever the workers do with other
keys and whichever threads the keys share.

The measure is how far the workers of the key are from one round more than asked for, and
then how many steps the engine needs for the last message of the key.  What helps is any
request or delivery of the key, and, while messages of the key wait, the next step of their
thread.  There always is one: a worker who waits for an answer, with nothing left to
execute, waits for a worker who has not pushed.

A thread might also stop at an allocation.  A key is given its memory once, before its rounds
begin, so a server that has the memory for all keys of its workers never does; that is
`FitsMemory`, and `Proofs/Server/Barriers.lean` counts what is allocated.
-/
import DeepInc.Lib.Fair
import DeepInc.Proofs.Server.Backlog
import DeepInc.Proofs.Server.Barriers
import DeepInc.Proofs.Server.Pulls
import Mathlib.Data.Prod.Lex

namespace DeepInc.Server

open Outcome Transition

variable {α κ : Type} {cfg : Config} {codec : Codec α κ}

/-! ### How far a worker is

The phases of a worker are numbered in the order it takes them, and a round starts again from
the first of a round.  `place` is that number with the rounds before it.  Every request and
every delivery takes one worker one place further.
-/

/-- The phases in the order a worker takes them. -/
def Phase.stage : Phase α → ℕ
  | .initPush => 0
  | .initWait => 1
  | .registerPush => 2
  | .registerWait => 3
  | .push => 4
  | .pushWait => 5
  | .pull => 6
  | .pullWait => 7
  | .answered _ => 8

theorem Phase.stage_le (p : Phase α) : p.stage ≤ 8 := by
  cases p <;> simp [stage]

theorem Phase.eq_answered {p : Phase α} (h : p.stage = 8) : ∃ r, p = .answered r := by
  cases p with
  | answered r => exact ⟨r, rfl⟩
  | _ => cases h

theorem Job.stage_acked (job : Job α κ cfg codec) (key : Key) (p : Phase α) :
    p.stage ≤ (job.acked key p).stage := by
  cases p with
  | initWait =>
      simp only [acked]
      split <;> simp [Phase.stage]
  | _ => simp [acked, Phase.stage]

/-- The server has the memory for the stored buffers of all its keys, each given it once. -/
structure Job.FitsMemory (job : Job α κ cfg codec) : Prop where
  size : ∀ key ∈ job.keys, align (job.len key) (job.dtype key) + State.pageSize < 2 ^ 31
  total : ∑ key ∈ job.keys, State.roundUp (align (job.len key) (job.dtype key)) State.pageSize +
    State.pageSize ≤ 2 ^ 64

namespace World

variable {job : Job α κ cfg codec} {key : Key} {x x' : World α κ}

/-- How far a worker is with a key. -/
def place (x : World α κ) (w : ℕ) (key : Key) : ℕ := 9 * x.round w key + (x.phase w key).stage

theorem place_setPhase (x : World α κ) (w : ℕ) (key : Key) (p : Phase α) (u : ℕ) (k : Key) :
    (x.setPhase w key p).place u k =
      9 * x.round u k + if u = w ∧ k = key then p.stage else (x.phase u k).stage := by
  unfold place setPhase
  dsimp only
  by_cases hu : u = w
  · subst hu
    by_cases hk : k = key
    · subst hk
      simp
    · simp [hk]
  · simp [hu]

/-- A worker is never set back. -/
theorem place_setPhase_le (x : World α κ) (w : ℕ) (key : Key) {p : Phase α}
    (hp : (x.phase w key).stage ≤ p.stage) (u : ℕ) (k : Key) :
    x.place u k ≤ (x.setPhase w key p).place u k := by
  rw [place_setPhase]
  unfold place
  split
  · obtain ⟨rfl, rfl⟩ := ‹u = w ∧ k = key›
    omega
  · exact Nat.le_refl _

theorem place_observe (job : Job α κ cfg codec) (x : World α κ) (e : Event α) (u : ℕ) (k : Key) :
    x.place u k ≤ (x.observe job e).place u k := by
  cases e with
  | pushResponse key w => exact place_setPhase_le { x with log := _ } w key (job.stage_acked key _) u k
  | pullResponse r =>
      exact place_setPhase_le { x with log := _ } r.sender r.key (Phase.stage_le _) u k
  | _ => exact Nat.le_refl _

theorem place_serve (job : Job α κ cfg codec) (x : World α κ) (r : State α κ × List (Event α))
    (u : ℕ) (k : Key) : x.place u k ≤ (x.serve job r).place u k := by
  have hfold : ∀ (es : List (Event α)) (y : World α κ),
      y.place u k ≤ (es.foldl (observe job) y).place u k := by
    intro es
    induction es with
    | nil => exact fun _ => Nat.le_refl _
    | cons e es ih => exact fun y => Nat.le_trans (y.place_observe job e u k) (ih _)
  exact hfold r.2 { x with server := r.1 }

end World

variable [Zero α]

/-- Half of the phases send a request, of the key they are about. -/
theorem Job.request_eq_some {job : Job α κ cfg codec} {w : ℕ} {key : Key} {round : ℕ}
    {p p' : Phase α} {req : KVMeta} {data : KVPairs α}
    (h : job.request w key round p = some (p', req, data)) :
    p'.stage = p.stage + 1 ∧ data.keys = [cfg.encodeKey key] := by
  cases p <;> simp only [request, reduceCtorEq, Option.some.injEq, Prod.mk.injEq] at h <;>
    obtain ⟨rfl, -, rfl⟩ := h <;> exact ⟨rfl, rfl⟩

theorem Job.exists_request (job : Job α κ cfg codec) (w : ℕ) (key : Key) (round : ℕ)
    {p : Phase α} (heven : p.stage % 2 = 0) (hlt : p.stage < 8) :
    ∃ r, job.request w key round p = some r := by
  cases p <;> simp [Phase.stage] at heven hlt <;> exact ⟨_, rfl⟩

/-- A list that is too short misses somebody. -/
theorem exists_not_mem_of_length_lt {l : List ℕ} {n : ℕ} (h : l.length < n) : ∃ w < n, w ∉ l := by
  by_contra hall
  simp only [not_exists, not_and, not_not] at hall
  have hsub : List.range n ⊆ l := fun w hw => hall w (List.mem_range.mp hw)
  have hle := (List.nodup_range.subperm hsub).length_le
  rw [List.length_range] at hle
  omega

namespace World

variable {job : Job α κ cfg codec} {key : Key} {x x' : World α κ}

variable [Add α]

/-- What a request does. -/
theorem Step.request_spec {w : ℕ} (h : Step job x (.request w key) x') :
    w < cfg.numWorkers ∧ key ∈ job.keys ∧ ∃ p req data r, job.request w key (x.round w key) (x.phase w key) =
        some (p, req, data) ∧
      x.server.handle cfg codec req data = .ok r ∧ x'.server = r.1 ∧
      ∀ u k, (x.setPhase w key p).place u k ≤ x'.place u k := by
  unfold Step World.move at h
  dsimp only at h
  split at h
  · rename_i hw
    obtain ⟨⟨p, req, data⟩, hreq, hsend⟩ := Option.map_eq_some_iff.mp h
    refine ⟨hw.1, hw.2, p, req, data, ?_⟩
    unfold sendRequest at hsend
    obtain ⟨r, hr, rfl⟩ := map_eq_ok hsend
    refine ⟨r, hreq, ?_, serve_server job _ r.1 r.2, fun u k => ?_⟩
    · split at hr
      · exact hr
      · rwa [observe_server] at hr
    · refine Nat.le_trans ?_ (place_serve job _ r u k)
      split
      · exact Nat.le_refl _
      · exact place_observe job _ _ u k
  · cases h

/-- A request brings its worker forward. -/
theorem Step.place_request {w : ℕ} (h : Step job x (.request w key) x') :
    x.place w key < x'.place w key ∧ ∀ u k, x.place u k ≤ x'.place u k := by
  obtain ⟨-, -, p, req, data, r, hreq, -, -, hplace⟩ := h.request_spec
  have hstage := (Job.request_eq_some hreq).1
  refine ⟨Nat.lt_of_lt_of_le ?_ (hplace w key), fun u k =>
    Nat.le_trans (x.place_setPhase_le w key (by omega) u k) (hplace u k)⟩
  rw [place_setPhase, if_pos ⟨rfl, rfl⟩]
  unfold place
  omega

/-- So does a delivery. -/
theorem Step.place_deliver {w : ℕ} (h : Step job x (.deliver w key) x') :
    x'.server = x.server ∧ x.place w key < x'.place w key ∧
      ∀ u k, x.place u k ≤ x'.place u k := by
  unfold Step World.move at h
  dsimp only at h
  split at h
  · rename_i r hp
    obtain rfl := Except.ok.inj (Option.some.inj h)
    have hold : x.place w key = 9 * x.round w key + 8 := by
      unfold place
      rw [hp]
      rfl
    refine ⟨rfl, ?_, fun u k => ?_⟩
    · rw [hold]
      simp only [place, setPhase, observe, Function.update_self, Phase.stage]
      omega
    · by_cases hu : u = w
      · subst hu
        by_cases hk : k = key
        · subst hk
          rw [hold]
          simp only [place, setPhase, observe, Function.update_self, Phase.stage]
          omega
        · simp [place, setPhase, observe, hk]
      · simp [place, setPhase, observe, hu]
  · cases h

theorem Step.pop_eq {i : ℕ} (h : Step job x (.pop i) x') :
    x' = { x with server := x.server.pop i } :=
  (Except.ok.inj (Option.some.inj h)).symm

theorem Step.execute_spec {i : ℕ} (h : Step job x (.execute i) x') :
    ∃ r, x.server.execute cfg codec i = .ok r ∧ x' = x.serve job r := by
  obtain ⟨r, hr, heq⟩ := map_eq_ok (Option.some.inj h)
  exact ⟨r, hr, heq.symm⟩

/-- No step sets a worker back. -/
theorem Step.place_le {a : Move} (h : Step job x a x') (u : ℕ) (k : Key) :
    x.place u k ≤ x'.place u k := by
  cases a with
  | request w key => exact h.place_request.2 u k
  | deliver w key => exact h.place_deliver.2.2 u k
  | pop i =>
      rw [h.pop_eq]
      exact Nat.le_refl _
  | execute i =>
      obtain ⟨r, -, rfl⟩ := h.execute_spec
      exact place_serve job x r u k

/-! ### What helps a key

A move helps if it is a request or a delivery of the key, or a step of the thread that still has
messages of the key.  As long as some worker is short of the mark there is such a move; it can
be done, goes on helping as long as nothing else has helped, and brings the measure down.
-/

/-- The moves of the engine threads, and those of the workers with `key`. -/
def Concerns (key : Key) : Move → Prop
  | .request _ k | .deliver _ k => k = key
  | .pop _ | .execute _ => True

/-- The move brings a round of `key` nearer to its end. -/
def Helps (cfg : Config) (key : Key) (x : World α κ) : Move → Prop
  | .request w k => k = key ∧ w < cfg.numWorkers ∧ (x.phase w key).stage % 2 = 0 ∧
      (x.phase w key).stage < 8
  | .deliver w k => k = key ∧ w < cfg.numWorkers ∧ (x.phase w key).stage = 8
  | .pop i => x.server.Owes key i ∧ x.server.hand i = none
  | .execute i => x.server.Owes key i ∧ x.server.hand i ≠ none

/-- Every worker has completed `R` rounds of `key`. -/
def Completed (cfg : Config) (key : Key) (R : ℕ) (x : World α κ) : Prop :=
  ∀ w < cfg.numWorkers, R ≤ x.round w key

/--
How far the workers are from one round of `key` more than `R`, and the engine from its last
message.
-/
def remaining (cfg : Config) (key : Key) (R : ℕ) (x : World α κ) : ℕ ×ₗ ℕ :=
  toLex (∑ w ∈ Finset.range cfg.numWorkers, (9 * (R + 1) - x.place w key), x.server.distance key)

omit [Zero α] [Add α] in
/-- Nobody is more than a round ahead of another. -/
theorem Inv.round_le (h : x.Inv job) (hk : key ∈ job.keys) {u w : ℕ} (hu : u < cfg.numWorkers)
    (hw : w < cfg.numWorkers) : x.round w key ≤ x.round u key + 1 := by
  have hfresh : Slot.Fresh key (x.view key) → x.round w key ≤ x.round u key + 1 := fun hf => by
    have hround : x.round w key = 0 := hf.round w
    omega
  cases h.slots key hk with
  | init h _ _ => exact hfresh h.fresh
  | register h _ _ => exact hfresh h.fresh
  | running h =>
      have hle := h.published_le
      have hworker := h.workers w hw
      have hslow := h.workers u hu
      have hanswered := hworker.answered
      have hlead := hworker.lead
      have hpushed := hslow.pushed
      have hahead : ((x.view key).phase u).ahead ≤ 1 := by
        cases (x.view key).phase u <;> simp [Phase.ahead]
      show (x.view key).round w ≤ (x.view key).round u + 1
      omega

omit [Zero α] [Add α] in
/-- As long as somebody is not done, everybody is below the mark. -/
theorem Inv.place_lt (h : x.Inv job) (hk : key ∈ job.keys) {R w : ℕ}
    (hR : ¬Completed cfg key R x) (hw : w < cfg.numWorkers) : x.place w key < 9 * (R + 1) := by
  unfold Completed at hR
  push Not at hR
  obtain ⟨u, hu, hlt⟩ := hR
  have hround := h.round_le hk hu hw
  have hstage := (x.phase w key).stage_le
  unfold place
  omega

/-- Either some worker of the key has got ahead, or all are where they were. -/
theorem Step.sum_place (h : x.Inv job) (hk : key ∈ job.keys) {R : ℕ} (hR : ¬Completed cfg key R x)
    {a : Move} (hstep : Step job x a x') :
    ∑ w ∈ Finset.range cfg.numWorkers, (9 * (R + 1) - x'.place w key) <
        ∑ w ∈ Finset.range cfg.numWorkers, (9 * (R + 1) - x.place w key) ∨
      ∀ w < cfg.numWorkers, x'.place w key = x.place w key := by
  by_cases hsame : ∀ w < cfg.numWorkers, x'.place w key = x.place w key
  · exact .inr hsame
  · push Not at hsame
    obtain ⟨u, hu, hne⟩ := hsame
    refine .inl (Finset.sum_lt_sum (fun w _ => ?_) ⟨u, Finset.mem_range.mpr hu, ?_⟩)
    · have := hstep.place_le w key
      omega
    · have hle := hstep.place_le u key
      have hlt := h.place_lt hk hR hu
      omega

omit [Zero α] [Add α] in
/-- Where no thread has work of a key, all its rounds are processed. -/
theorem published_eq_of_not_owes (howes : ¬∃ t, x.server.Owes key t)
    (hrun : Slot.Running job key (x.view key)) :
    publishedRounds key (x.view key).log = issuedRounds key (x.view key).log := by
  have hpending : (x.view key).pending = [] := by
    show Option.elim (x.server.hashCache key) [] _ = []
    cases ht : x.server.hashCache key with
    | none => rfl
    | some t =>
        have hzero : upTo key (x.server.waiting t) = 0 :=
          Nat.eq_zero_of_not_pos fun hpos => howes ⟨t, ht, hpos⟩
        have hnone : PriorityQueue.ofKey key (x.server.waiting t) = [] :=
          List.filter_eq_nil_iff.mpr fun m hm => by simpa using upTo_eq_zero.mp hzero m hm
        simp only [Option.elim_some, hnone, List.map_nil]
  have hdone := hrun.done
  rw [hpending] at hdone
  simpa using hdone

omit [Zero α] [Add α] in
/-- There always is something that helps. -/
theorem Inv.exists_helps (h : x.Inv job) (hk : key ∈ job.keys) :
    ∃ a, Concerns key a ∧ Helps cfg key x a := by
  -- somebody has not joined, and is not where those who joined wait
  have hcollect {ready waiting : Phase α} (hc : Slot.Collecting cfg key ready waiting (x.view key))
      (heven : ready.stage % 2 = 0) (hlt : ready.stage < 8) :
      ∃ a, Concerns key a ∧ Helps cfg key x a := by
    obtain ⟨w, hw, hnot⟩ := exists_not_mem_of_length_lt hc.request_length
    have hphase : x.phase w key = ready := ((hc.phase w hw).resolve_right fun h => hnot h.2).1
    exact ⟨.request w key, rfl, rfl, hw, by rwa [hphase], by rwa [hphase]⟩
  cases h.slots key hk with
  | init hc _ _ => exact hcollect hc (by simp [Phase.stage]) (by simp [Phase.stage])
  | register hc _ _ => exact hcollect hc (by simp [Phase.stage]) (by simp [Phase.stage])
  | running hrun =>
      by_cases howes : ∃ t, x.server.Owes key t
      · obtain ⟨t, ht⟩ := howes
        by_cases hhand : x.server.hand t = none
        · exact ⟨.pop t, trivial, ht, hhand⟩
        · exact ⟨.execute t, trivial, ht, hhand⟩
      · obtain ⟨w, hw, hnot⟩ := hrun.exists_not_mem
        have hworker := hrun.workers w hw
        have hrounds := published_eq_of_not_owes howes hrun
        have hview : (x.view key).phase w = x.phase w key := rfl
        have hround := hworker.phase
        have hpushed := hworker.pushed
        have hanswered := hworker.answered
        have hfresh := hworker.fresh
        rw [hview] at hround hpushed hanswered hfresh
        rw [if_neg hnot] at hpushed
        cases hp : x.phase w key with
        | push => exact ⟨.request w key, rfl, rfl, hw, by simp [hp, Phase.stage]⟩
        | pull => exact ⟨.request w key, rfl, rfl, hw, by simp [hp, Phase.stage]⟩
        | answered r => exact ⟨.deliver w key, rfl, rfl, hw, by simp [hp, Phase.stage]⟩
        | pullWait =>
            have hans := hfresh hp
            rw [hp] at hpushed hanswered
            simp only [Phase.ahead, Phase.held] at hpushed hanswered
            omega
        | _ =>
            rw [hp] at hround
            exact hround.elim

/-- An execution takes the message out of the hand, and touches no queue. -/
theorem Step.execute_same (h : x.Inv job) {i : ℕ} {m : EngineMessage α}
    (hm : x.server.hand i = some m) (hstep : Step job x (.execute i) x') :
    State.SameQueues (x.server.dropHand i) x'.server := by
  obtain ⟨r, hr, rfl⟩ := hstep.execute_spec
  obtain ⟨-, -, hmade⟩ := h.sound.placed i m (by simp [State.waiting, hm])
  have hops : m.ops ≠ .terminate := by
    rcases hmade.source with ⟨hops, -⟩ | ⟨hops | hops, -⟩ <;> rw [hops] <;> simp
  rw [show (x.serve job r).server = r.1 from serve_server job x r.1 r.2]
  exact (State.execute_same cfg codec x.server hm hops).of_eq_ok hr

omit [Zero α] [Add α] in
/-- A key that is not stored yet finds its memory, as every key has been given it once at most. -/
theorem not_noMemory (hfits : job.FitsMemory) (h : InStages job x) {f : Fault} :
    ¬NoMemory job x.server f := by
  rintro ⟨-, k, hk, hnone, hno⟩
  have hnot : k ∉ job.keys.filter fun k => (x.server.store k).tensor.isSome = true := by
    simp [hnone]
  have hsum : x.server.allocated + State.roundUp (align (job.len k) (job.dtype k)) State.pageSize ≤
      ∑ k ∈ job.keys, State.roundUp (align (job.len k) (job.dtype k)) State.pageSize := by
    rw [h.allocated, Nat.add_comm]
    refine (Finset.sum_insert hnot (f := fun k =>
      State.roundUp (align (job.len k) (job.dtype k)) State.pageSize)).symm.trans_le ?_
    exact Finset.sum_le_sum_of_subset (Finset.insert_subset hk (Finset.filter_subset _ _))
  have hsize := hfits.size k hk
  have htotal := hfits.total
  have hok : State.memalignOk x.server.allocated (align (job.len k) (job.dtype k)) = true := by
    unfold State.memalignOk
    rw [Bool.and_eq_true, decide_eq_true_iff, decide_eq_true_iff]
    omega
  rw [hok] at hno
  cases hno

/-- What helps can be done. -/
theorem Inv.enabled_of_helps (h : x.Inv job) (hcfg : cfg.RunsSync)
    (hfifo : cfg.enableSchedule = false) (hfits : job.FitsMemory) (hstages : InStages job x)
    (hk : key ∈ job.keys) {a : Move} (ha : Helps cfg key x a) : Enabled (Step job) x a := by
  have hok : ∀ {a r}, x.move job a = some r → ∃ x', Step job x a x' := by
    intro a r hr
    cases h.move hcfg hr with
    | ok hm => exact ⟨_, hr⟩
    | error hf => exact absurd hf (not_noMemory hfits hstages)
  cases a with
  | request w k =>
      obtain ⟨rfl, hw, heven, hlt⟩ := ha
      obtain ⟨r, hreq⟩ := job.exists_request w k (x.round w k) heven hlt
      have hmove : x.move job (.request w k) = some (x.sendRequest job w k r.1 r.2.1 r.2.2) := by
        unfold World.move
        dsimp only
        rw [if_pos ⟨hw, hk⟩, hreq]
        rfl
      obtain ⟨x', hstep⟩ := hok hmove
      refine ⟨x', hstep, fun heq => ?_⟩
      have := hstep.place_request.1
      rw [heq] at this
      exact Nat.lt_irrefl _ this
  | deliver w k =>
      obtain ⟨rfl, hw, hstage⟩ := ha
      obtain ⟨r, hr⟩ := Phase.eq_answered hstage
      obtain ⟨x', hstep⟩ : ∃ x', Step job x (.deliver w k) x' := by
        unfold Step World.move
        simp only [hr]
        exact ⟨_, rfl⟩
      refine ⟨x', hstep, fun heq => ?_⟩
      have := hstep.place_deliver.2.1
      rw [heq] at this
      exact Nat.lt_irrefl _ this
  | pop i =>
      obtain ⟨howes, hhand⟩ := ha
      obtain ⟨m, hm⟩ := h.sound.pop_of_owes hfifo howes hhand
      refine ⟨_, rfl, fun heq => ?_⟩
      have hserver := congrArg (fun x => x.server.hand i) heq
      rw [show (x.server.pop i).hand i = _ from hserver, hhand] at hm
      cases hm
  | execute i =>
      obtain ⟨-, hhand⟩ := ha
      obtain ⟨m, hm⟩ := Option.ne_none_iff_exists'.mp hhand
      obtain ⟨x', hstep⟩ := hok (a := .execute i) rfl
      refine ⟨x', hstep, fun heq => ?_⟩
      have hdrop : x'.server.hand i = none := by
        rw [(hstep.execute_same h hm).hand]
        exact Function.update_self ..
      rw [heq, hm] at hdrop
      cases hdrop

/-- A step that brings no worker of the key forward brings the engine nearer, or leaves all
that helps as it is. -/
theorem Step.distance (h : x.Inv job) (hfifo : cfg.enableSchedule = false) {a : Move}
    (hstep : Step job x a x')
    (hsame : ∀ w < cfg.numWorkers, x'.place w key = x.place w key) :
    x'.server.distance key < x.server.distance key ∨
      (State.Stays key x.server x'.server ∧ ¬Helps cfg key x a) := by
  cases a with
  | request w k =>
      obtain ⟨hw, hkeys, p, req, data, r, hreq, hr, hserver, -⟩ := hstep.request_spec
      have hplace := hstep.place_request.1
      have hk : key ≠ k := by
        rintro rfl
        rw [hsame w hw] at hplace
        exact Nat.lt_irrefl _ hplace
      have hadds := (State.handle_adds cfg codec x.server req data
        (Job.request_eq_some hreq).2).of_eq_ok hr
      rw [cfg.decodeKey_encodeKey (job.keys_lt k hkeys), ← hserver] at hadds
      refine .inr ⟨hadds.stays hk fun i => (h.sound.schedule i).trans hfifo, fun hhelps => ?_⟩
      exact hk hhelps.1.symm
  | deliver w k =>
      refine .inr ⟨by rw [hstep.place_deliver.1]; exact .refl _, fun hhelps => ?_⟩
      obtain ⟨rfl, hw, -⟩ := hhelps
      have := hstep.place_deliver.2.1
      rw [hsame w hw] at this
      exact Nat.lt_irrefl _ this
  | pop i =>
      rw [hstep.pop_eq]
      exact h.sound.distance_pop hfifo i
  | execute i =>
      cases hm : x.server.hand i with
      | none =>
          obtain ⟨r, hr, rfl⟩ := hstep.execute_spec
          have hexec : x.server.execute cfg codec i = .ok (x.server, []) := by
            unfold State.execute
            rw [hm]
          obtain rfl := Except.ok.inj (hexec.symm.trans hr)
          exact .inr ⟨.refl _, fun hhelps => hhelps.2 hm⟩
      | some m =>
          rcases State.distance_execute hm (hstep.execute_same h hm) with hlt | ⟨hstays, howes⟩
          · exact .inl hlt
          · exact .inr ⟨hstays, fun hhelps => howes hhelps.1⟩

omit [Zero α] [Add α] in
/-- What helps goes on helping, as long as nothing is achieved. -/
theorem Helps.stays {a : Move} (ha : Helps cfg key x a)
    (hsame : ∀ w < cfg.numWorkers, x'.place w key = x.place w key)
    (hstays : State.Stays key x.server x'.server) : Helps cfg key x' a := by
  have hstage : ∀ w < cfg.numWorkers, (x'.phase w key).stage = (x.phase w key).stage := by
    intro w hw
    have h := hsame w hw
    have hlt := (x.phase w key).stage_le
    have hlt' := (x'.phase w key).stage_le
    unfold place at h
    omega
  cases a with
  | request w k =>
      obtain ⟨rfl, hw, heven, hlt⟩ := ha
      exact ⟨rfl, hw, by rwa [hstage w hw], by rwa [hstage w hw]⟩
  | deliver w k =>
      obtain ⟨rfl, hw, heq⟩ := ha
      exact ⟨rfl, hw, by rwa [hstage w hw]⟩
  | pop i =>
      obtain ⟨howes, hhand⟩ := hstays.owes i ha.1
      exact ⟨howes, by rw [hhand]; exact ha.2⟩
  | execute i =>
      obtain ⟨howes, hhand⟩ := hstays.owes i ha.1
      exact ⟨howes, by rw [hhand]; exact ha.2⟩

/-- The rounds of a key get nearer to the mark, one way or the other. -/
theorem variant (hcfg : cfg.RunsSync) (hfifo : cfg.enableSchedule = false)
    (hfits : job.FitsMemory) (hk : key ∈ job.keys) (R : ℕ) :
    Variant (Step job) (Concerns key) (fun x => x.Inv job ∧ InStages job x) (Completed cfg key R)
      (remaining cfg key R) (Helps cfg key) where
  exists_helps _ h _ := h.1.exists_helps hk
  enabled _ _ h _ ha := h.1.enabled_of_helps hcfg hfifo hfits h.2 hk ha
  step x a x' h hR hstep := by
    obtain ⟨h, -⟩ := h
    refine .inr ?_
    unfold remaining
    rcases hstep.sum_place h hk hR with hlt | hsame
    · exact .inl (Prod.Lex.toLex_lt_toLex.mpr (.inl hlt))
    · have hsum : ∑ w ∈ Finset.range cfg.numWorkers, (9 * (R + 1) - x'.place w key) =
          ∑ w ∈ Finset.range cfg.numWorkers, (9 * (R + 1) - x.place w key) :=
        Finset.sum_congr rfl fun w hw => by rw [hsame w (Finset.mem_range.mp hw)]
      rw [hsum]
      rcases hstep.distance h hfifo hsame with hlt | ⟨hstays, hnot⟩
      · exact .inl (Prod.Lex.toLex_lt_toLex.mpr (.inr ⟨rfl, hlt⟩))
      · refine .inr ⟨?_, hnot, fun b hb => hb.stays hsame hstays⟩
        exact Prod.Lex.toLex_le_toLex.mpr (.inr ⟨rfl, Nat.le_of_eq hstays.distance⟩)

end World

/-! ### Every round comes to an end -/

variable [Add α]

/--
**Every round of a key is completed by all workers.**  In a run that is fair to the engine
threads and to the workers with the key, and whatever happens to the other keys, all workers
complete any number of rounds.  The server runs in sync mode and without scheduling, with its
tables in place, and has the memory for the keys of its workers.
-/
theorem rounds_completed (job : Job α κ cfg codec) (hcfg : cfg.RunsSync)
    (hfifo : cfg.enableSchedule = false) (hfits : job.FitsMemory) {key : Key}
    (hk : key ∈ job.keys) (e : Execution (World.Step job)) (hinit : e.state 0 = World.init cfg)
    (hfair : e.Fair (World.Concerns key)) (R : ℕ) :
    ∃ n, ∀ w < cfg.numWorkers, R ≤ (e.state n).round w key := by
  have hinv : (e.state 0).Inv job ∧ InStages job (e.state 0) := by
    rw [hinit]
    exact ⟨World.inv_init hcfg, inStages_init hcfg.numWorkers⟩
  obtain ⟨n, -, hn⟩ := (World.variant hcfg hfifo hfits hk R).eventually
    (fun _ _ _ h hstep => ⟨((h.1.move hcfg hstep).of_ok).inv hcfg.numWorkers h.1,
      (h.2.step hcfg.numWorkers hstep).1⟩) e hfair hinv
  exact ⟨n, hn⟩

/-- A move, as numbers. -/
def Move.code : Move → ℕ × ℕ × ℕ
  | .request w key => (0, w, key)
  | .pop i => (1, i, 0)
  | .execute i => (2, i, 0)
  | .deliver w key => (3, w, key)

instance : Countable Move := by
  refine Function.Injective.countable (f := Move.code) fun a b h => ?_
  cases a <;> cases b <;> simp [Move.code] at h ⊢ <;> exact h

/-- Two workers whose moves are taken in turn get through ten rounds. -/
theorem rounds_completed_two : ∃ e : Execution (World.Step (singleKey 2)),
    ∃ n, ∀ w < 2, 10 ≤ (e.state n).round w 0 := by
  obtain ⟨e, hinit, hfair⟩ := exists_fair (World.Step (singleKey 2)) (World.init (defaultConfig 2))
  exact ⟨e, rounds_completed (singleKey 2) ⟨rfl, rfl, by decide, by decide⟩ rfl
    ⟨by decide, by decide⟩ (show (0 : Key) ∈ (singleKey 2).keys by decide) e hinit (hfair _) 10⟩

end DeepInc.Server
