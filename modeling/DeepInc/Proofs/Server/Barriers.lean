/-
Every phase before the rounds is a barrier.

A key is in one of three stages: its init pushes are collected, its registrations are, or its
workers are in their rounds.  A key without a compressor has no second stage.  The stage says
who is counted, what is stored, and who has been answered how often; a step stays in it, or is
the request that completes it.

The stages of different keys have nothing to do with each other, and the threads may be busy
with any of them.  So a step is described twice: what it does to the key it is about, and that
every other key is passed by.

What is shown of a run is that an init push or a registration is answered only by the step that
completes its stage, and that this step answers everybody who has asked, once.  Nobody is in the
next stage before that.  It holds in every mode of the server, since the engine and the rounds
touch nothing the stages are about.

Along with it goes what is stored: nothing before the last init push, and from then on one
buffer of the length that was agreed on.  How often memory is asked for is counted by the keys
that have one.
-/
import DeepInc.Proofs.Server.Results
import DeepInc.Proofs.Server.Startup
import Mathlib.Algebra.BigOperators.Group.Finset.Basic

namespace DeepInc.Server

open Outcome Transition

variable {α κ : Type} {cfg : Config} {codec : Codec α κ}

/-! ### Phases and requests -/

namespace Phase

/-- The worker is through with the initialisation. -/
def Started : Phase α → Prop
  | initPush | initWait | registerPush | registerWait => False
  | _ => True

/-- Of a phase with a barrier: where its worker waits, and the type of its request. -/
def barrier : Phase α → Option (Phase α × RequestType)
  | initPush => some (.initWait, .kDefaultPushPull)
  | registerPush => some (.registerWait, .kCompressedPushPull)
  | _ => none

end Phase

/-! ### Recording events -/

namespace World

variable (job : Job α κ cfg codec) (key : Key) (x : World α κ)

theorem observe_log (e : Event α) : (x.observe job e).log = e :: x.log := by
  cases e <;> rfl

theorem serve_log (s : State α κ) (es : List (Event α)) :
    (x.serve job (s, es)).log = es.reverse ++ x.log := by
  have hfold : ∀ y : World α κ, (es.foldl (observe job) y).log = es.reverse ++ y.log := by
    induction es with
    | nil => exact fun _ => rfl
    | cons e es ih =>
        intro y
        rw [List.foldl_cons, ih, observe_log]
        simp
  exact hfold _

/-- Whoever is answered goes on to the next phase. -/
theorem phase_serve_pushResponses (s : State α κ) {ws : List ℕ} (hws : ws.Nodup) (u : ℕ) :
    (x.serve job (s, ws.map (.pushResponse key))).phase u key =
      if u ∈ ws then job.acked key (x.phase u key) else x.phase u key := by
  have hkeys : ∀ e ∈ ws.map (Event.pushResponse (α := α) key), e.key = key := by
    intro e he
    obtain ⟨w, -, rfl⟩ := List.mem_map.mp he
    rfl
  have hview := x.view_serve_self job s hkeys
  have hphase := congrArg (fun v : Slot α κ => v.phase u) hview
  rw [Slot.serve, show List.foldl _ _ _ = _ from Slot.serve_pushResponses job key ws hws _] at hphase
  exact hphase

/-- Events do not take a worker out of its rounds. -/
theorem started_serve (s : State α κ) (es : List (Event α)) {w : ℕ}
    (h : (x.phase w key).Started) : ((x.serve job (s, es)).phase w key).Started := by
  have hset : ∀ (y : World α κ) (u : ℕ) (k : Key) (p : Phase α), (y.phase w key).Started →
      (u = w → k = key → p.Started) → ((y.setPhase u k p).phase w key).Started := by
    intro y u k p hy hp
    unfold setPhase
    by_cases hu : w = u
    · subst hu
      by_cases hk : key = k
      · subst hk
        simpa using hp rfl rfl
      · simpa [hk] using hy
    · simpa [hu] using hy
  have hfold : ∀ y : World α κ, (y.phase w key).Started →
      ((es.foldl (observe job) y).phase w key).Started := by
    induction es with
    | nil => exact fun _ hy => hy
    | cons e es ih =>
        intro y hy
        refine ih _ ?_
        cases e with
        | pushResponse k u =>
            refine hset { y with log := _ } u k _ hy ?_
            rintro rfl rfl
            show (job.acked k (y.phase u k)).Started
            cases hp : y.phase u k with
            | initWait | registerWait =>
                rw [hp] at hy
                exact hy.elim
            | _ =>
                rw [hp] at hy
                exact hy
        | pullResponse r => exact hset { y with log := _ } _ _ _ hy fun _ _ => trivial
        | _ => exact hy
  exact hfold _ h

end World

/-! ### The stages of a key

`Gathers` is a stage in which requests are collected: those who have sent theirs stand in the
list of requests and wait, and all others are still to send.  `Stage` has one constructor for
each of the three.  `Gate` is what becomes of one request: it is counted, or it is the last one
and everybody is answered.
-/

section Stages

variable (job : Job α κ cfg codec) (key : Key)

/-- The requests of a phase are collected: `ws` have sent theirs, and wait. -/
structure Gathers (ready waiting : Phase α) (type : RequestType) (ws : List ℕ) (x : World α κ) :
    Prop where
  nodup : ws.Nodup
  lt : ∀ w ∈ ws, w < cfg.numWorkers
  length : ws.length < cfg.numWorkers
  phase : ∀ w < cfg.numWorkers, x.phase w key = if w ∈ ws then waiting else ready
  /-- only requests of this phase are counted -/
  request : (x.server.updateBuf key).request = ws.map fun w => job.reqMeta w key type true
  idle : ∀ i, ∀ m ∈ x.server.waiting i, m.key ≠ key

/-- What is allocated for a key, once it is. -/
structure Allocated (x : World α κ) : Prop where
  tensor : (x.server.store key).tensor.isSome = true
  len : (x.server.store key).len = job.len key
  dtype : (x.server.store key).dtype = job.dtype key

/-- Where a key is. -/
inductive Stage (x : World α κ) : Prop
  | init {ws : List ℕ} (h : Gathers job key .initPush .initWait .kDefaultPushPull ws x)
      (hstore : (x.server.store key).tensor = none) (hcomp : x.server.compressorMap key = none)
      (hacks : acks key x.log = [])
  | register {ws : List ℕ} (hjob : job.compressed key = true)
      (h : Gathers job key .registerPush .registerWait .kCompressedPushPull ws x)
      (hstore : Allocated job key x) (hcomp : (x.server.compressorMap key).isSome = true ↔ ws ≠ [])
      (hacks : (acks key x.log).Perm (List.range cfg.numWorkers))
  | rounds (hphase : ∀ w < cfg.numWorkers, (x.phase w key).Started)
      (hreq : ∀ r ∈ (x.server.updateBuf key).request, ∃ w < cfg.numWorkers,
        r = job.reqMeta w key .kDefaultPushPull true)
      (hstore : Allocated job key x)
      (hcomp : (x.server.compressorMap key).isSome = true ↔ job.compressed key = true)
      (hacks : ((acks key x.log).take cfg.numWorkers).Perm (List.range cfg.numWorkers))
      (hacks' : job.compressed key = true →
        (((acks key x.log).drop cfg.numWorkers).take cfg.numWorkers).Perm (List.range cfg.numWorkers))

/--
What becomes of a request with a barrier: the last one of its phase has everyone answered,
and each other one is counted.
-/
structure Gate (waiting : Phase α) (type : RequestType) (x : World α κ) (w : ℕ) (x' : World α κ) :
    Prop where
  last : (∀ u < cfg.numWorkers, u ≠ w → x.phase u key = waiting) →
    (∃ ws : List ℕ, ws.Perm (List.range cfg.numWorkers) ∧ acks key x'.log = acks key x.log ++ ws) ∧
      (x'.server.updateBuf key).request = []
  early : ∀ u < cfg.numWorkers, u ≠ w → x.phase u key ≠ waiting → acks key x'.log = acks key x.log ∧
    (x'.server.updateBuf key).request =
      (x.server.updateBuf key).request ++ [job.reqMeta w key type true]

/-- What a step does about the phases of a key. -/
structure Advances (x : World α κ) (a : Move) (x' : World α κ) : Prop where
  gate : ∀ w p, a = .request w key → (x.phase w key).barrier = some p → Gate job key p.1 p.2 x w x'
  push : ∀ w, a = .request w key → x.phase w key = .push → acks key x'.log = acks key x.log ++ [w]
  /-- nothing else is a reason to answer a push -/
  quiet : (∀ w, a = .request w key → (x.phase w key).barrier = none ∧ x.phase w key ≠ .push) →
    acks key x'.log = acks key x.log
  /-- the last init push allocates -/
  allocate : (x.server.store key).tensor = none → (x'.server.store key).tensor.isSome = true →
    ∃ w, a = .request w key ∧ x.phase w key = .initPush ∧
      ∀ u < cfg.numWorkers, u ≠ w → x.phase u key = .initWait
  allocated : (x.server.store key).tensor.isSome = true →
    (x'.server.store key).tensor.isSome = true
  /-- a registration makes the compressor, after that -/
  create : ∀ c, x.server.compressorMap key = none → x'.server.compressorMap key = some c →
    (∃ w, a = .request w key ∧ x.phase w key = .registerPush) ∧
      (x.server.store key).tensor.isSome = true ∧
      codec.create (job.content key) (job.contentLen key) (align (job.len key) (job.dtype key))
        (job.dtype key) = some c
  created : (x.server.compressorMap key).isSome = true →
    (x'.server.compressorMap key).isSome = true
  /-- the other registrations find it -/
  found : ∀ w c, a = .request w key → x.phase w key = .registerPush →
    x.server.compressorMap key = some c → x'.server.compressorMap key = some c

end Stages

/-! ### Steps that pass a key by

A step passes a key by if it leaves its phases, its requests and what is stored of it as they
were.  That is so of every request for another key and of every execution.
-/

/-- For the start-up of `key` by `n` workers nothing changes. -/
structure Same (n : ℕ) (key : Key) (x x' : World α κ) : Prop where
  phase : ∀ u < n, x'.phase u key = x.phase u key
  acks : acks key x'.log = acks key x.log
  keeps : Keeps key x.server x'.server
  request : (x'.server.updateBuf key).request = (x.server.updateBuf key).request
  waiting : ∀ i, ∀ m ∈ x'.server.waiting i, m.key = key → m ∈ x.server.waiting i

section Same

variable {job : Job α κ cfg codec} {key : Key} {x x' : World α κ}

theorem Allocated.keeps (h : Allocated job key x) (hkeeps : Keeps key x.server x'.server) :
    Allocated job key x' :=
  ⟨hkeeps.stored.trans h.tensor, hkeeps.len.trans h.len, hkeeps.dtype.trans h.dtype⟩

theorem Gathers.same {ready waiting : Phase α} {type : RequestType} {ws : List ℕ}
    (h : Gathers job key ready waiting type ws x) (hsame : Same cfg.numWorkers key x x') :
    Gathers job key ready waiting type ws x' := by
  refine ⟨h.nodup, h.lt, h.length, fun w hw => ?_, ?_, fun i m hm hmk => ?_⟩
  · rw [hsame.phase w hw]
    exact h.phase w hw
  · rw [hsame.request]
    exact h.request
  · exact h.idle i m (hsame.waiting i m hm hmk) hmk

/-- What has been answered first stays so. -/
theorem take_append_of_perm {n : ℕ} {l l' : List ℕ} (h : (l.take n).Perm (List.range n)) :
    (l ++ l').take n = l.take n := by
  refine List.take_append_of_le_length ?_
  have := h.length_eq
  rw [List.length_take, List.length_range] at this
  omega

/-- In its rounds a key stays. -/
theorem Stage.rounds_of (hphase : ∀ w < cfg.numWorkers, (x'.phase w key).Started)
    (hreq : ∀ r ∈ (x'.server.updateBuf key).request, ∃ w < cfg.numWorkers,
      r = job.reqMeta w key .kDefaultPushPull true)
    (hstore : Allocated job key x)
    (hcomp : (x.server.compressorMap key).isSome = true ↔ job.compressed key = true)
    (hacks : ((acks key x.log).take cfg.numWorkers).Perm (List.range cfg.numWorkers))
    (hacks' : job.compressed key = true →
      (((acks key x.log).drop cfg.numWorkers).take cfg.numWorkers).Perm (List.range cfg.numWorkers))
    (hkeeps : Keeps key x.server x'.server) {new : List ℕ}
    (hnew : acks key x'.log = acks key x.log ++ new) : Stage job key x' := by
  refine .rounds hphase hreq (hstore.keeps hkeeps) ?_ ?_ fun hc => ?_
  · rw [hkeeps.compressor]
    exact hcomp
  · rw [hnew, take_append_of_perm hacks]
    exact hacks
  · have hlen : cfg.numWorkers ≤ (acks key x.log).length := by
      have := hacks.length_eq
      rw [List.length_take, List.length_range] at this
      omega
    rw [hnew, List.drop_append_of_le_length hlen, take_append_of_perm (hacks' hc)]
    exact hacks' hc

theorem Stage.same (h : Stage job key x) (hsame : Same cfg.numWorkers key x x') : Stage job key x' := by
  cases h with
  | init h hstore hcomp hacks =>
      refine .init (h.same hsame) ?_ ?_ (hsame.acks.trans hacks)
      · have := hsame.keeps.stored
        rw [hstore] at this
        exact Option.isNone_iff_eq_none.mp (by simpa using this)
      · have := hsame.keeps.compressor
        rw [hcomp] at this
        exact Option.isNone_iff_eq_none.mp (by simpa using this)
  | register hjob h hstore hcomp hacks =>
      refine .register hjob (h.same hsame) (hstore.keeps hsame.keeps) ?_ ?_
      · rw [hsame.keeps.compressor]
        exact hcomp
      · rw [hsame.acks]
        exact hacks
  | rounds hphase hreq hstore hcomp hacks hacks' =>
      refine .rounds_of (fun w hw => ?_) (fun r hr => ?_) hstore hcomp hacks hacks' hsame.keeps
        (hsame.acks.trans (List.append_nil _).symm)
      · rw [hsame.phase w hw]
        exact hphase w hw
      · rw [hsame.request] at hr
        exact hreq r hr

/-- A step that answers no push of the key and keeps what is stored advances nothing. -/
theorem Advances.of_keeps {a : Move} (hkeeps : Keeps key x.server x'.server)
    (ha : ∀ w, a = .request w key → (x.phase w key).barrier = none ∧ x.phase w key ≠ .push)
    (hacks : acks key x'.log = acks key x.log) : Advances job key x a x' := by
  have hstored := hkeeps.stored
  have hcomp := hkeeps.compressor
  refine ⟨fun w p hw hp => ?_, fun w hw hp => absurd hp (ha w hw).2, fun _ => hacks,
    fun hnone hsome => ?_, fun hsome => hstored.trans hsome, fun c hnone hsome => ?_,
    fun hsome => hcomp.trans hsome, fun w c hw hp _ => ?_⟩
  · rw [(ha w hw).1] at hp
    cases hp
  · rw [hstored, hnone] at hsome
    cases hsome
  · rw [hnone, hsome] at hcomp
    cases hcomp
  · have := (ha w hw).1
    rw [hp] at this
    cases this

/-- A key that a request is not about is passed by. -/
theorem Same.of_only {k : Key} (hk : k ≠ key) {x₁ : World α κ} {s' : State α κ}
    {es : List (Event α)} (honly : Only key x.server s') (hes : ∀ e ∈ es, e.key = key)
    (hphase : ∀ u, x₁.phase u k = x.phase u k)
    (hlog : DeepInc.Server.acks k x₁.log = DeepInc.Server.acks k x.log)
    (job : Job α κ cfg codec) (n : ℕ) : Same n k x (x₁.serve job (s', es)) := by
  have hne : ∀ e ∈ es, e.key ≠ k := fun e he hek => hk (hek.symm.trans (hes e he))
  refine ⟨fun u _ => ((x₁.serve_ne job s' hne).2 u).trans (hphase u), ?_, ?_, ?_, ?_⟩
  · rw [World.serve_log, acks_append, filterMap_ack_of_ne hne, List.append_nil, hlog]
  · rw [World.serve_server]
    exact honly.keeps k hk
  · rw [World.serve_server]
    exact honly.request k hk
  · rw [World.serve_server]
    intro i m hm hmk
    rcases honly.waiting i m hm with hm | hm
    · exact hm
    · exact absurd (hmk.symm.trans hm) hk

end Same

/-! ### Requests with a barrier

Both kinds of request end in `collectInit`, which joins a worker to those who wait or releases
all.  That the last one is there is a matter of counting: workers who wait are distinct, and
there are as many as the server expects.
-/

section Barrier

variable {job : Job α κ cfg codec} {key : Key} {x : World α κ} {ready waiting : Phase α}
  {type : RequestType} {ws : List ℕ} {w : ℕ}

theorem phase_setPhase_self (x : World α κ) (w : ℕ) (key : Key) (p : Phase α) (u : ℕ) :
    (x.setPhase w key p).phase u key = if u = w then p else x.phase u key := by
  unfold World.setPhase
  by_cases hu : u = w
  · subst hu
    simp
  · simp [hu]

namespace Gathers

theorem not_mem (h : Gathers job key ready waiting type ws x) (hne : ready ≠ waiting)
    (hw : w < cfg.numWorkers) (hp : x.phase w key = ready) : w ∉ ws := by
  intro hmem
  have := h.phase w hw
  rw [if_pos hmem] at this
  exact hne (hp.symm.trans this)

/-- The workers who wait, with one who is still to join. -/
theorem joined (h : Gathers job key ready waiting type ws x) (hne : ready ≠ waiting)
    (hw : w < cfg.numWorkers) (hp : x.phase w key = ready) : Joined cfg.numWorkers (ws ++ [w]) :=
  .concat ⟨h.nodup, h.lt⟩ hw (h.not_mem hne hw hp)

/-- A worker who is not the last one is counted. -/
theorem join (h : Gathers job key ready waiting type ws x) (hne : ready ≠ waiting)
    (hw : w < cfg.numWorkers) (hp : x.phase w key = ready) (hlen : ws.length + 1 < cfg.numWorkers)
    {s₁ : State α κ} (hreq : (s₁.updateBuf key).request = (x.server.updateBuf key).request)
    (hwaiting : ∀ i, s₁.waiting i = x.server.waiting i) {x' : World α κ}
    (hx' : x' = (x.setPhase w key waiting).serve job
      (s₁.setRequest key ((s₁.updateBuf key).request ++ [job.reqMeta w key type true]), [])) :
    Gathers job key ready waiting type (ws ++ [w]) x' ∧ acks key x'.log = acks key x.log ∧
      Gate job key waiting type x w x' := by
  subst hx'
  have hjoined := h.joined hne hw hp
  have hrequest : (((x.setPhase w key waiting).serve job (s₁.setRequest key
      ((s₁.updateBuf key).request ++ [job.reqMeta w key type true]), [])).server.updateBuf key).request =
      (x.server.updateBuf key).request ++ [job.reqMeta w key type true] := by
    rw [World.serve_server, request_setRequest, hreq]
  refine ⟨⟨hjoined.nodup, hjoined.lt, by simpa using hlen, fun u hu => ?_, ?_,
    fun i m hm => ?_⟩, rfl, fun hall => ?_, fun _ _ _ _ => ⟨rfl, hrequest⟩⟩
  · show (x.setPhase w key waiting).phase u key = _
    rw [phase_setPhase_self]
    by_cases huw : u = w
    · simp [huw]
    · rw [if_neg huw, h.phase u hu]
      simp [huw]
  · rw [hrequest, h.request, List.map_append]
    rfl
  · exact h.idle i m (by rw [← hwaiting]; exact hm)
  · -- with all others there, this one would be the last
    have hfull : (List.range cfg.numWorkers).length ≤ (ws ++ [w]).length := by
      refine (List.nodup_range.subperm fun u hu => ?_).length_le
      have hu := List.mem_range.mp hu
      by_cases huw : u = w
      · simp [huw]
      · have hphase := h.phase u hu
        rw [hall u hu huw] at hphase
        by_cases hmem : u ∈ ws
        · exact List.mem_append_left _ hmem
        · rw [if_neg hmem] at hphase
          exact absurd hphase.symm hne
    rw [List.length_range, List.length_append, List.length_singleton] at hfull
    omega

/-- The last worker has everyone released. -/
theorem release (h : Gathers job key ready waiting type ws x) (hne : ready ≠ waiting)
    (hw : w < cfg.numWorkers) (hp : x.phase w key = ready) (hlen : cfg.numWorkers ≤ ws.length + 1)
    {s₁ : State α κ} (hreq : (s₁.updateBuf key).request = (x.server.updateBuf key).request)
    {x' : World α κ}
    (hx' : x' = (x.setPhase w key waiting).serve job (s₁.setRequest key [],
      ((s₁.updateBuf key).request ++ [job.reqMeta w key type true]).map
        fun r => .pushResponse key r.sender)) :
    (∀ u < cfg.numWorkers, u ≠ w → x.phase u key = waiting) ∧
      (∀ u < cfg.numWorkers, x'.phase u key = job.acked key waiting) ∧
      (x'.server.updateBuf key).request = [] ∧
      (∃ l : List ℕ, l.Perm (List.range cfg.numWorkers) ∧ acks key x'.log = acks key x.log ++ l) ∧
      Gate job key waiting type x w x' := by
  subst hx'
  have hjoined := h.joined hne hw hp
  have hmem : ∀ u < cfg.numWorkers, u ∈ ws ++ [w] := fun u hu => hjoined.mem (by simpa using hlen) hu
  have hwaits : ∀ u < cfg.numWorkers, u ≠ w → x.phase u key = waiting := by
    intro u hu huw
    have := h.phase u hu
    rwa [if_pos (by simpa [huw] using hmem u hu)] at this
  have hevents : (((s₁.updateBuf key).request ++ [job.reqMeta w key type true]).map
      fun r => Event.pushResponse (α := α) key r.sender) = (ws ++ [w]).map (.pushResponse key) := by
    rw [hreq, h.request, List.map_append, List.map_append, List.map_map]
    rfl
  have hperm : (ws ++ [w]).Perm (List.range cfg.numWorkers) := hjoined.perm (by simpa using hlen)
  rw [hevents]
  have hacks : acks key ((x.setPhase w key waiting).serve job (s₁.setRequest key [],
      (ws ++ [w]).map (.pushResponse key))).log = acks key x.log ++ (ws ++ [w]) := by
    rw [World.serve_log, acks_append, filterMap_ack_pushResponses]
    rfl
  have hrequest : (((x.setPhase w key waiting).serve job (s₁.setRequest key [],
      (ws ++ [w]).map (.pushResponse key))).server.updateBuf key).request = [] := by
    rw [World.serve_server, request_setRequest]
  refine ⟨hwaits, fun u hu => ?_, hrequest, ⟨_, hperm, hacks⟩, fun _ => ⟨⟨_, hperm, hacks⟩, hrequest⟩,
    fun u hu huw hnw => absurd (hwaits u hu huw) hnw⟩
  rw [World.phase_serve_pushResponses job key _ _ hjoined.nodup, if_pos (hmem u hu), phase_setPhase_self]
  by_cases huw : u = w
  · rw [if_pos huw]
  · rw [if_neg huw, hwaits u hu huw]

end Gathers

end Barrier

/-! ### Requests -/

/-- What a request of worker `w` for `key` leads to. -/
structure Handled (job : Job α κ cfg codec) (key : Key) (x : World α κ) (w : ℕ) (x' : World α κ) :
    Prop where
  tidy : x'.server.Tidy
  stage : Stage job key x'
  advances : Advances job key x (.request w key) x'
  others : ∀ k, k ≠ key → Same cfg.numWorkers k x x'
  memory : (x'.server.allocated = x.server.allocated ∧
      (x'.server.store key).tensor.isSome = (x.server.store key).tensor.isSome) ∨
    ((x.server.store key).tensor = none ∧ (x'.server.store key).tensor.isSome = true ∧
      x'.server.allocated = x.server.allocated +
        State.roundUp (align (job.len key) (job.dtype key)) State.pageSize)

section Handled

variable {job : Job α κ cfg codec} {key : Key} {x x' : World α κ} {w : ℕ}

/-- A request with a barrier does to the stored buffer and the compressor what its phase allows. -/
theorem Advances.of_gate {p : Phase α × RequestType} (hp : (x.phase w key).barrier = some p)
    (hgate : Gate job key p.1 p.2 x w x')
    (hallocate : (x.server.store key).tensor = none → (x'.server.store key).tensor.isSome = true →
      x.phase w key = .initPush ∧ ∀ u < cfg.numWorkers, u ≠ w → x.phase u key = .initWait)
    (hallocated : (x.server.store key).tensor.isSome = true →
      (x'.server.store key).tensor.isSome = true)
    (hcreate : ∀ c, x.server.compressorMap key = none → x'.server.compressorMap key = some c →
      x.phase w key = .registerPush ∧ (x.server.store key).tensor.isSome = true ∧
        codec.create (job.content key) (job.contentLen key) (align (job.len key) (job.dtype key))
          (job.dtype key) = some c)
    (hfound : ∀ c, x.server.compressorMap key = some c → x'.server.compressorMap key = some c) :
    Advances job key x (.request w key) x' := by
  refine ⟨fun u q hu hq => ?_, fun u hu hpush => ?_, fun hnone => ?_, fun hnone hsome => ?_,
    hallocated, fun c hnone hsome => ?_, fun hsome => ?_, fun _ c _ _ hc => hfound c hc⟩
  · obtain ⟨rfl, -⟩ := Move.request.inj hu
    obtain rfl := Option.some.inj (hp.symm.trans hq)
    exact hgate
  · obtain ⟨rfl, -⟩ := Move.request.inj hu
    rw [hpush] at hp
    cases hp
  · rw [(hnone w rfl).1] at hp
    cases hp
  · obtain ⟨hphase, hall⟩ := hallocate hnone hsome
    exact ⟨w, rfl, hphase, hall⟩
  · obtain ⟨hphase, hrest⟩ := hcreate c hnone hsome
    exact ⟨⟨w, rfl, hphase⟩, hrest⟩
  · obtain ⟨c, hc⟩ := Option.isSome_iff_exists.mp hsome
    rw [hfound c hc]
    rfl

/-- All workers have had their init push answered: registration is next, or the first round. -/
theorem Stage.of_initialised (hN : 0 < cfg.numWorkers)
    (hphase : ∀ u < cfg.numWorkers, x.phase u key = job.acked key .initWait)
    (hrequest : (x.server.updateBuf key).request = [])
    (hidle : ∀ i, ∀ m ∈ x.server.waiting i, m.key ≠ key) (hallocated : Allocated job key x)
    (hcomp : x.server.compressorMap key = none)
    (hacks : (acks key x.log).Perm (List.range cfg.numWorkers)) : Stage job key x := by
  cases hjob : job.compressed key with
  | true =>
      have hgathers : Gathers job key .registerPush .registerWait .kCompressedPushPull [] x := by
        refine ⟨List.nodup_nil, by simp, hN, fun u hu => ?_, by simpa using hrequest, hidle⟩
        rw [hphase u hu]
        simp [Job.acked, hjob]
      exact .register hjob hgathers hallocated (by simp [hcomp]) hacks
  | false =>
      refine .rounds (fun u hu => ?_) (by simp [hrequest]) hallocated (by simp [hcomp, hjob])
        ?_ (fun hc => by rw [hjob] at hc; cases hc)
      · rw [hphase u hu]
        simp [Job.acked, hjob, Phase.Started]
      · rw [List.take_of_length_le (by rw [hacks.length_eq, List.length_range])]
        exact hacks

/-- All workers have had their registration answered: the first round is next. -/
theorem Stage.of_registered
    (hphase : ∀ u < cfg.numWorkers, x.phase u key = job.acked key .registerWait)
    (hrequest : (x.server.updateBuf key).request = []) (hallocated : Allocated job key x)
    (hjob : job.compressed key = true) (hcomp : (x.server.compressorMap key).isSome = true)
    {first second : List ℕ} (hacks : acks key x.log = first ++ second)
    (hfirst : first.Perm (List.range cfg.numWorkers))
    (hsecond : second.Perm (List.range cfg.numWorkers)) : Stage job key x := by
  have hlen : first.length = cfg.numWorkers := by rw [hfirst.length_eq, List.length_range]
  have hlen' : second.length = cfg.numWorkers := by rw [hsecond.length_eq, List.length_range]
  refine .rounds (fun u hu => ?_) (by simp [hrequest]) hallocated (by simp [hcomp, hjob]) ?_
    fun _ => ?_
  · rw [hphase u hu]
    trivial
  · rw [hacks, List.take_left' hlen]
    exact hfirst
  · rw [hacks, List.drop_left' hlen, List.take_of_length_le (Nat.le_of_eq hlen')]
    exact hsecond

/-- What the other keys see of a request: nothing. -/
theorem Same.of_request {s₁ : State α κ} (waiting : Phase α) (honly : Only key x.server s₁)
    (request : List KVMeta) {es : List (Event α)} (hes : ∀ e ∈ es, e.key = key) {k : Key}
    (hk : k ≠ key) : Same cfg.numWorkers k x
      ((x.setPhase w key waiting).serve job (s₁.setRequest key request, es)) :=
  .of_only hk (honly.setRequest request) hes (World.phase_setPhase_ne x w hk _) rfl job _

theorem key_of_mem_pushResponses (requests : List KVMeta) :
    ∀ e ∈ requests.map fun r => Event.pushResponse (α := α) key r.sender, e.key = key := by
  intro e he
  obtain ⟨r, -, rfl⟩ := List.mem_map.mp he
  rfl

/-- Whichever registration it is, the key has its compressor afterwards. -/
theorem Allocated.registered {s₁ : State α κ} {c : Compressor α κ} {request : List KVMeta}
    (hstore : Allocated job key x) (hp : x.phase w key = .registerPush)
    (honly : Only key x.server s₁) (hc : s₁.compressorMap key = some c)
    (hfind : x.server.compressorMap key = some c ∨ x.server.compressorMap key = none ∧
      codec.create (job.content key) (job.contentLen key)
        (align (x.server.store key).len (x.server.store key).dtype)
        (x.server.store key).dtype = some c)
    (hstoreEq : s₁.store = x.server.store) (halloc : s₁.allocated = x.server.allocated)
    (hserver : x'.server = s₁.setRequest key request)
    (hgate : Gate job key .registerWait .kCompressedPushPull x w x') :
    x'.server.Tidy ∧ Allocated job key x' ∧ (x'.server.compressorMap key).isSome = true ∧
      Advances job key x (.request w key) x' ∧ x'.server.allocated = x.server.allocated ∧
      (x'.server.store key).tensor.isSome = (x.server.store key).tensor.isSome := by
  have hstore' : x'.server.store = x.server.store := by
    rw [hserver]
    exact hstoreEq
  have hc' : x'.server.compressorMap key = some c := by
    rw [hserver]
    exact hc
  have hbarrier : (x.phase w key).barrier = some (.registerWait, .kCompressedPushPull) := by
    rw [hp]
    rfl
  refine ⟨?_, ⟨?_, ?_, ?_⟩, by rw [hc']; rfl, .of_gate hbarrier hgate (fun hnone _ => ?_)
    (fun hsome => ?_) (fun c' hnone hsome => ⟨hp, hstore.tensor, ?_⟩) (fun c' hsome => ?_),
    ?_, by rw [hstore']⟩
  · rw [hserver]
    exact (honly.setRequest _).tidy
  · rw [hstore']
    exact hstore.tensor
  · rw [hstore']
    exact hstore.len
  · rw [hstore']
    exact hstore.dtype
  · have := hstore.tensor
    rw [hnone] at this
    cases this
  · rw [hstore']
    exact hsome
  · rcases hfind with hold | ⟨-, hcreate⟩
    · rw [hold] at hnone
      cases hnone
    · rw [hstore.len, hstore.dtype] at hcreate
      rw [← hsome, hc']
      exact hcreate
  · rcases hfind with hold | ⟨hnone, -⟩
    · rw [hc', ← hold, hsome]
    · rw [hnone] at hsome
      cases hsome
  · rw [hserver]
    exact halloc

variable [Zero α] [Add α]

/-- The init push of a worker. -/
theorem Handled.initPush (hN : 0 < cfg.numWorkers) (htidy : x.server.Tidy)
    (hstage : Stage job key x) (hw : w < cfg.numWorkers) (hk : key ∈ job.keys)
    (hp : x.phase w key = .initPush) :
    Ensures (x.sendRequest job w key .initWait (job.reqMeta w key .kDefaultPushPull true)
      (Job.pushData cfg key (job.init w key) (job.len key))) (Handled job key x w) fun _ => True := by
  cases hstage with
  | register _ h _ _ _ =>
      have := h.phase w hw
      rw [hp] at this
      split at this <;> cases this
  | rounds hphase _ _ _ _ _ =>
      have := hphase w hw
      rw [hp] at this
      exact this.elim
  | @init ws h hstore hcomp hacks =>
      have hne : (Phase.initPush : Phase α) ≠ .initWait := by simp
      have hbarrier : (x.phase w key).barrier = some (.initWait, .kDefaultPushPull) := by rw [hp]; rfl
      have hcount : (x.server.updateBuf key).request.length = ws.length := by
        rw [h.request, List.length_map]
      rw [World.sendRequest_push job x w key _ rfl, State.handle_push x.server w hk, hstore]
      refine Ensures.map ((State.initPush_counts htidy cfg key _ _ (job.len key)).mono ?_
        fun _ h => h)
      rintro r ⟨s₁, rfl, honly, hcompressor, hreq, hwaiting, hjoin, hlast⟩
      have hcomp₁ : s₁.compressorMap key = none := (congrFun hcompressor key).trans hcomp
      rcases collectInit_cases s₁ cfg key (job.reqMeta w key .kDefaultPushPull true) with
        ⟨hlen, heq⟩ | ⟨hlen, heq⟩
      · rw [hreq, hcount] at hlen
        rw [heq]
        obtain ⟨hstore₁, halloc⟩ := hjoin (by rw [hcount]; exact hlen)
        generalize hx' : (x.setPhase w key .initWait).serve job (s₁.setRequest key
          ((s₁.updateBuf key).request ++ [job.reqMeta w key .kDefaultPushPull true]), []) = x'
        obtain ⟨hgathers, hacks', hgate⟩ := h.join hne hw hp hlen hreq hwaiting hx'.symm
        have hserver : x'.server = s₁.setRequest key
            ((s₁.updateBuf key).request ++ [job.reqMeta w key .kDefaultPushPull true]) := by
          rw [← hx', World.serve_server]
        have hstore' : x'.server.store = x.server.store := by
          rw [hserver]
          exact hstore₁
        have hcomp' : x'.server.compressorMap key = none := by
          rw [hserver]
          exact hcomp₁
        refine ⟨?_, .init hgathers (by rw [hstore', hstore]) hcomp' (hacks'.trans hacks),
          .of_gate hbarrier hgate (fun hnone hsome => ?_) (fun hsome => ?_) (fun c _ hsome => ?_)
          (fun c hc => ?_), ?_, .inl ⟨?_, by rw [hstore']⟩⟩
        · rw [hserver]
          exact (honly.setRequest _).tidy
        · rw [hstore', hnone] at hsome
          cases hsome
        · rw [hstore']
          exact hsome
        · rw [hcomp'] at hsome
          cases hsome
        · rw [hcomp] at hc
          cases hc
        · rw [← hx']
          exact fun k hk => .of_request _ honly _ (by simp) hk
        · rw [hserver]
          exact halloc
      · rw [hreq, hcount] at hlen
        rw [heq]
        obtain ⟨hsome₁, hlen₁, hdtype₁, halloc⟩ := hlast (by rw [hcount]; exact hlen)
        generalize hx' : (x.setPhase w key .initWait).serve job (s₁.setRequest key [],
          ((s₁.updateBuf key).request ++ [job.reqMeta w key .kDefaultPushPull true]).map
            fun r => Event.pushResponse key r.sender) = x'
        obtain ⟨hwaits, hphase, hrequest, ⟨l, hl, hacks'⟩, hgate⟩ :=
          h.release hne hw hp hlen hreq hx'.symm
        have hserver : x'.server = s₁.setRequest key [] := by
          rw [← hx', World.serve_server]
        have hcomp' : x'.server.compressorMap key = none := by
          rw [hserver]
          exact hcomp₁
        have hallocated : Allocated job key x' := by
          refine ⟨?_, ?_, ?_⟩ <;> rw [hserver]
          · exact hsome₁
          · exact hlen₁
          · exact hdtype₁
        have hidle : ∀ i, ∀ m ∈ x'.server.waiting i, m.key ≠ key := by
          rw [hserver]
          exact fun i m hm => h.idle i m (by rw [← hwaiting]; exact hm)
        rw [hacks, List.nil_append] at hacks'
        refine ⟨?_, ?_, .of_gate hbarrier hgate (fun _ _ => ⟨hp, hwaits⟩)
          (fun _ => hallocated.tensor) (fun c _ hsome => ?_) (fun c hc => ?_), ?_,
          .inr ⟨hstore, hallocated.tensor, ?_⟩⟩
        · rw [hserver]
          exact (honly.setRequest _).tidy
        · exact .of_initialised hN hphase hrequest hidle hallocated hcomp' (by rwa [hacks'])
        · rw [hcomp'] at hsome
          cases hsome
        · rw [hcomp] at hc
          cases hc
        · rw [← hx']
          exact fun k hk => .of_request _ honly _ (key_of_mem_pushResponses _) hk
        · rw [hserver]
          exact halloc

/-- The registration of a worker. -/
theorem Handled.registerPush (htidy : x.server.Tidy) (hstage : Stage job key x)
    (hw : w < cfg.numWorkers) (hk : key ∈ job.keys) (hp : x.phase w key = .registerPush) :
    Ensures (x.sendRequest job w key .registerWait (job.reqMeta w key .kCompressedPushPull true)
      (Job.pushData cfg key (job.content key) (job.contentLen key))) (Handled job key x w)
      fun _ => True := by
  cases hstage with
  | init h _ _ _ =>
      have := h.phase w hw
      rw [hp] at this
      split at this <;> cases this
  | rounds hphase _ _ _ _ _ =>
      have := hphase w hw
      rw [hp] at this
      exact this.elim
  | @register ws hjob h hstore hcomp hacks =>
      have hne : (Phase.registerPush : Phase α) ≠ .registerWait := by simp
      have hcount : (x.server.updateBuf key).request.length = ws.length := by
        rw [h.request, List.length_map]
      rw [World.sendRequest_push job x w key _ rfl, State.handle_register x.server w hk]
      refine Ensures.map ((State.register_counts htidy cfg codec key _ _ (job.contentLen key)
        rfl).mono ?_ fun _ h => h)
      rintro r ⟨c, s₁, rfl, honly, hc₁, hfind, hupdate, hstoreEq, halloc, hwaiting⟩
      have hreq : (s₁.updateBuf key).request = (x.server.updateBuf key).request := by rw [hupdate]
      rcases collectInit_cases s₁ cfg key (job.reqMeta w key .kCompressedPushPull true) with
        ⟨hlen, heq⟩ | ⟨hlen, heq⟩
      · rw [hreq, hcount] at hlen
        rw [heq]
        generalize hx' : (x.setPhase w key .registerWait).serve job (s₁.setRequest key
          ((s₁.updateBuf key).request ++ [job.reqMeta w key .kCompressedPushPull true]), []) = x'
        obtain ⟨hgathers, hacks', hgate⟩ := h.join hne hw hp hlen hreq hwaiting hx'.symm
        obtain ⟨htidy', hallocated, hcomp', hadvances, hmemory⟩ :=
          hstore.registered hp honly hc₁ hfind hstoreEq halloc
            (by rw [← hx', World.serve_server]) hgate
        refine ⟨htidy', .register hjob hgathers hallocated (by simp [hcomp']) ?_, hadvances, ?_,
          .inl hmemory⟩
        · rw [hacks']
          exact hacks
        · rw [← hx']
          exact fun k hk => .of_request _ honly _ (by simp) hk
      · rw [hreq, hcount] at hlen
        rw [heq]
        generalize hx' : (x.setPhase w key .registerWait).serve job (s₁.setRequest key [],
          ((s₁.updateBuf key).request ++ [job.reqMeta w key .kCompressedPushPull true]).map
            fun r => Event.pushResponse key r.sender) = x'
        obtain ⟨-, hphase, hrequest, ⟨l, hl, hacks'⟩, hgate⟩ :=
          h.release hne hw hp hlen hreq hx'.symm
        obtain ⟨htidy', hallocated, hcomp', hadvances, hmemory⟩ :=
          hstore.registered hp honly hc₁ hfind hstoreEq halloc
            (by rw [← hx', World.serve_server]) hgate
        refine ⟨htidy', .of_registered hphase hrequest hallocated hjob hcomp' hacks' hacks hl,
          hadvances, ?_, .inl hmemory⟩
        · rw [← hx']
          exact fun k hk => .of_request _ honly _ (key_of_mem_pushResponses _) hk

/-- A push of a round is answered at once. -/
theorem Handled.push (htidy : x.server.Tidy) (hstage : Stage job key x)
    (hw : w < cfg.numWorkers) (hk : key ∈ job.keys) (hp : x.phase w key = .push) :
    Ensures (x.sendRequest job w key .pushWait (job.reqMeta w key .kDefaultPushPull true)
      (Job.pushData cfg key (job.pushed w key (x.round w key)) (job.pushedLen w key (x.round w key))))
      (Handled job key x w) fun _ => True := by
  cases hstage with
  | init h _ _ _ | register _ h _ _ _ =>
      have := h.phase w hw
      rw [hp] at this
      split at this <;> cases this
  | rounds hphase hreq hstore hcomp hacks hacks' =>
      obtain ⟨tensor, htensor⟩ := Option.isSome_iff_exists.mp hstore.tensor
      rw [World.sendRequest_push job x w key _ rfl, State.handle_push x.server w hk, htensor]
      refine Ensures.map ((State.push_counts htidy hstore.tensor _ _ _).mono ?_ fun _ h => h)
      rintro ⟨s', es⟩ ⟨s₁, request, hcalm, rfl, hcounted, hsent, hes⟩
      generalize hx' : (x.setPhase w key .pushWait).serve job (s₁.setRequest key request, es) = x'
      have hserver : x'.server = s₁.setRequest key request := by rw [← hx', World.serve_server]
      have hkeeps : Keeps key x.server x'.server := by
        have h := hcalm.keeps key
        rw [hserver]
        exact ⟨h.stored, h.len, h.dtype, h.compressor⟩
      have hnew : acks key x'.log = acks key x.log ++ [w] := by
        rw [← hx', World.serve_log, acks_append, hsent]
        rfl
      have hstored := hkeeps.stored
      have hcompressor := hkeeps.compressor
      refine ⟨?_, .rounds_of (fun u hu => ?_) (fun q hq => ?_) hstore hcomp hacks hacks' hkeeps hnew,
        ⟨fun u p hu hq => ?_, fun u hu _ => ?_, fun hnone => ?_, fun hnone _ => ?_,
          fun hsome => hstored.trans hsome, fun c hnone hsome => ?_,
          fun hsome => hcompressor.trans hsome, fun u c hu hq _ => ?_⟩, ?_, .inl ⟨?_, hstored⟩⟩
      · rw [hserver]
        exact (hcalm.only.setRequest request).tidy
      · rw [← hx']
        refine World.started_serve job key _ _ es ?_
        rw [phase_setPhase_self]
        split
        · trivial
        · exact hphase u hu
      · rw [hserver, request_setRequest] at hq
        rcases hcounted q hq with hold | rfl
        · exact hreq q hold
        · exact ⟨w, hw, rfl⟩
      · obtain ⟨rfl, -⟩ := Move.request.inj hu
        rw [hp] at hq
        cases hq
      · obtain ⟨rfl, -⟩ := Move.request.inj hu
        exact hnew
      · exact absurd hp (hnone w rfl).2
      · rw [htensor] at hnone
        cases hnone
      · rw [hnone, hsome] at hcompressor
        cases hcompressor
      · obtain ⟨rfl, -⟩ := Move.request.inj hu
        rw [hp] at hq
        cases hq
      · rw [← hx']
        exact fun k hkk => .of_only hkk (hcalm.only.setRequest request) hes
          (World.phase_setPhase_ne x w hkk _) rfl job _
      · rw [hserver]
        exact hcalm.allocated

/-- A pull disturbs no phase. -/
theorem Handled.pull (htidy : x.server.Tidy) (hstage : Stage job key x)
    (hw : w < cfg.numWorkers) (hk : key ∈ job.keys) (hp : x.phase w key = .pull) :
    Ensures (x.sendRequest job w key .pullWait (job.reqMeta w key .kDefaultPushPull false)
      (Job.pullData cfg key)) (Handled job key x w) fun _ => True := by
  cases hstage with
  | init h _ _ _ | register _ h _ _ _ =>
      have := h.phase w hw
      rw [hp] at this
      split at this <;> cases this
  | rounds hphase hreq hstore hcomp hacks hacks' =>
      rw [World.sendRequest_pull job x w key _ rfl, State.handle_pull x.server w hk]
      refine Ensures.map ((State.pull_calm htidy key _).mono ?_ fun _ h => h)
      rintro ⟨s', es⟩ ⟨hcalm, hes⟩
      have hevents : ∀ e ∈ es, e.key = key := fun e he => (hes e he).1
      generalize hx' : ((x.setPhase w key .pullWait).observe job (.pullRequest key w)).serve job
        (s', es) = x'
      have hserver : x'.server = s' := by rw [← hx', World.serve_server]
      have hkeeps : Keeps key x.server x'.server := by
        rw [hserver]
        exact hcalm.keeps key
      have hlog : ∀ k, acks k (.pullRequest key w :: x.log) = acks k x.log := by
        intro k
        rw [acks_cons]
        exact List.append_nil _
      have hsame : acks key x'.log = acks key x.log := by
        rw [← hx', World.serve_log, acks_append,
          List.filterMap_eq_nil_iff.mpr fun e he => (hes e he).2 key, List.append_nil]
        exact hlog key
      refine ⟨?_, .rounds_of (fun u hu => ?_) (fun q hq => ?_) hstore hcomp hacks hacks' hkeeps
        (hsame.trans (List.append_nil _).symm), .of_keeps hkeeps (fun u hu => ?_) hsame, ?_,
        .inl ⟨?_, hkeeps.stored⟩⟩
      · rw [hserver]
        exact hcalm.tidy
      · rw [← hx']
        refine World.started_serve job key _ _ es ?_
        show ((x.setPhase w key .pullWait).phase u key).Started
        rw [phase_setPhase_self]
        split
        · trivial
        · exact hphase u hu
      · rw [hserver, hcalm.request key] at hq
        exact hreq q hq
      · obtain ⟨rfl, -⟩ := Move.request.inj hu
        rw [hp]
        exact ⟨rfl, by simp⟩
      · rw [← hx']
        refine fun k hkk => .of_only hkk (hcalm.mono fun _ hf => hf.elim).only hevents (fun u => ?_)
          ?_ job _
        · exact World.phase_setPhase_ne x w hkk .pullWait u
        · exact hlog k
      · rw [hserver]
        exact hcalm.allocated

end Handled

/-! ### Runs -/

section Runs

variable {job : Job α κ cfg codec} {x x' : World α κ}

/-- What holds of the keys in every run. -/
structure InStages (job : Job α κ cfg codec) (x : World α κ) : Prop where
  tidy : x.server.Tidy
  stages : ∀ key ∈ job.keys, Stage job key x
  /-- every stored key has been given its memory once -/
  allocated : x.server.allocated =
    ∑ key ∈ job.keys with (x.server.store key).tensor.isSome = true,
      State.roundUp (align (job.len key) (job.dtype key)) State.pageSize

theorem inStages_init (hN : 0 < cfg.numWorkers) : InStages job (World.init cfg) := by
  have hwaiting : ∀ i, ∀ m ∈ ((World.init cfg : World α κ).server).waiting i, False := by
    intro i m hm
    unfold State.waiting World.init startServer State.resizeTables at hm
    simp only [Option.toList_none, List.nil_append] at hm
    split at hm <;> cases hm
  refine ⟨⟨fun i m hm => (hwaiting i m hm).elim, fun i m hm => (hwaiting i m hm).elim,
    fun key p hp => by cases hp⟩, fun key hk => ?_, ?_⟩
  · have hgathers : Gathers job key .initPush .initWait .kDefaultPushPull [] (World.init cfg) :=
      ⟨List.nodup_nil, by simp, hN, fun _ _ => rfl, rfl, fun i m hm => (hwaiting i m hm).elim⟩
    exact .init hgathers rfl rfl rfl
  · rw [Finset.sum_filter]
    exact (Finset.sum_eq_zero fun key _ =>
      if_neg (by simp [World.init, startServer, State.resizeTables])).symm

/-- A step that allocates nothing. -/
theorem InStages.of_keeps (h : InStages job x) (htidy : x'.server.Tidy)
    (hstages : ∀ key ∈ job.keys, Stage job key x') (hkeeps : ∀ key, Keeps key x.server x'.server)
    (hallocated : x'.server.allocated = x.server.allocated) : InStages job x' := by
  refine ⟨htidy, hstages, ?_⟩
  rw [hallocated, h.allocated]
  refine Finset.sum_congr (Finset.filter_congr fun key _ => ?_) fun _ _ => rfl
  rw [(hkeeps key).stored]

/-- What a request leads to, for all keys. -/
theorem InStages.request (h : InStages job x) {w : ℕ} {k : Key} (hk : k ∈ job.keys)
    (hx' : Handled job k x w x') : InStages job x' ∧
      ∀ key ∈ job.keys, Advances job key x (.request w k) x' := by
  refine ⟨⟨hx'.tidy, fun key hkey => ?_, ?_⟩, fun key _ => ?_⟩
  · by_cases hkk : key = k
    · subst hkk
      exact hx'.stage
    · exact (h.stages key hkey).same (hx'.others key hkk)
  · have hothers : ∀ key, key ≠ k →
        (x'.server.store key).tensor.isSome = (x.server.store key).tensor.isSome :=
      fun key hkk => (hx'.others key hkk).keeps.stored
    rcases hx'.memory with ⟨halloc, hsame⟩ | ⟨hnone, hsome, halloc⟩
    · rw [halloc, h.allocated]
      refine Finset.sum_congr (Finset.filter_congr fun key _ => ?_) fun _ _ => rfl
      by_cases hkk : key = k
      · rw [hkk, hsame]
      · rw [hothers key hkk]
    · have hinsert : (job.keys.filter fun key => (x'.server.store key).tensor.isSome = true) =
          insert k (job.keys.filter fun key => (x.server.store key).tensor.isSome = true) := by
        ext key
        simp only [Finset.mem_filter, Finset.mem_insert]
        by_cases hkk : key = k
        · simp [hkk, hk, hsome]
        · simp [hkk, hothers key hkk]
      rw [halloc, h.allocated, hinsert, Finset.sum_insert (by simp [hnone]), Nat.add_comm]
  · by_cases hkk : key = k
    · subst hkk
      exact hx'.advances
    · refine .of_keeps (hx'.others key hkk).keeps (fun u hu => ?_) (hx'.others key hkk).acks
      obtain ⟨-, rfl⟩ := Move.request.inj hu
      exact absurd rfl hkk

/-- An answer reaches its worker. -/
theorem InStages.deliver (h : InStages job x) {w : ℕ} {k : Key} {r : Response α}
    (hp : x.phase w k = .answered r) (content : Mem α) (round : ℕ → Key → ℕ) :
    InStages job { (x.observe job (.delivered r content)).setPhase w k .push with round := round } ∧
      ∀ key ∈ job.keys, Advances job key x (.deliver w k)
        { (x.observe job (.delivered r content)).setPhase w k .push with round := round } := by
  have hacks : ∀ key, acks key (.delivered r content :: x.log) = acks key x.log := by
    intro key
    rw [acks_cons]
    exact List.append_nil _
  refine ⟨h.of_keeps h.tidy (fun key hk => ?_) (fun key => .refl key _) rfl,
    fun key _ => .of_keeps (.refl key _) (by simp) (hacks key)⟩
  have hother : (∀ u < cfg.numWorkers,
    ((x.observe job (.delivered r content)).setPhase w k .push).phase u key =
      x.phase u key) → Stage job key
        { (x.observe job (.delivered r content)).setPhase w k .push with round := round } :=
    fun hphase => (h.stages key hk).same ⟨hphase, hacks key, .refl key _, rfl, fun _ _ hm _ => hm⟩
  by_cases hkk : key = k
  · subst hkk
    have hset : ∀ u, ((x.observe job (.delivered r content)).setPhase w key .push).phase u key =
        if u = w then .push else x.phase u key :=
      phase_setPhase_self (x.observe job (.delivered r content)) w key .push
    by_cases hw : w < cfg.numWorkers
    · cases h.stages key hk with
      | init hg _ _ _ | register _ hg _ _ _ =>
          have := hg.phase w hw
          rw [hp] at this
          split at this <;> cases this
      | rounds hphase hreq hstore hcomp hfirst hsecond =>
          refine .rounds_of (fun u hu => ?_) hreq hstore hcomp hfirst hsecond (.refl key _)
            ((hacks key).trans (List.append_nil _).symm)
          show (((x.observe job (.delivered r content)).setPhase w key .push).phase u key).Started
          rw [hset]
          split
          · trivial
          · exact hphase u hu
    · refine hother fun u hu => ?_
      rw [hset, if_neg (by omega)]
  · exact hother fun u _ => World.phase_setPhase_ne (x.observe job (.delivered r content)) w hkk _ u

variable [Zero α] [Add α]

/-- A thread executes the message in its hand. -/
theorem InStages.execute (h : InStages job x) {i : ℕ} {r : State α κ × List (Event α)}
    (hr : x.server.execute cfg codec i = .ok r) : InStages job (x.serve job r) ∧
      ∀ key ∈ job.keys, Advances job key x (.execute i) (x.serve job r) := by
  obtain ⟨s', es⟩ := r
  obtain ⟨hcalm, hes⟩ := (State.execute_calm h.tidy codec i).of_eq_ok hr
  generalize hx' : x.serve job (s', es) = x'
  have hserver : x'.server = s' := by rw [← hx', World.serve_server]
  have hkeeps : ∀ key, Keeps key x.server x'.server := by
    rw [hserver]
    exact hcalm.keeps
  have hacks : ∀ key, acks key x'.log = acks key x.log := by
    intro key
    rw [← hx', World.serve_log, acks_append,
      List.filterMap_eq_nil_iff.mpr fun e he => (hes e he).2 key, List.append_nil]
  refine ⟨h.of_keeps (by rw [hserver]; exact hcalm.tidy) (fun key hk => ?_) hkeeps
    (by rw [hserver]; exact hcalm.allocated), fun key _ => .of_keeps (hkeeps key) (by simp) (hacks key)⟩
  -- there is work only for keys that are in their rounds
  by_cases hwork : ∃ m ∈ x.server.waiting i, m.key = key
  · obtain ⟨m, hm, hmk⟩ := hwork
    cases h.stages key hk with
    | init hg _ _ _ | register _ hg _ _ _ => exact absurd hmk (hg.idle i m hm)
    | rounds hphase hreq hstore hcomp hfirst hsecond =>
        refine .rounds_of (fun u hu => ?_) (fun q hq => ?_) hstore hcomp hfirst hsecond (hkeeps key)
          ((hacks key).trans (List.append_nil _).symm)
        · rw [← hx']
          exact World.started_serve job key x s' es (hphase u hu)
        · rw [hserver, hcalm.request key] at hq
          exact hreq q hq
  · have hne : ∀ e ∈ es, e.key ≠ key := by
      intro e he hek
      obtain ⟨⟨m, hm, hmk⟩, -⟩ := hes e he
      exact hwork ⟨m, hm, hmk.symm.trans hek⟩
    refine (h.stages key hk).same ⟨fun u _ => ?_, hacks key, hkeeps key, ?_, fun j m hm _ => ?_⟩
    · rw [← hx']
      exact (x.serve_ne job s' hne).2 u
    · rw [hserver]
      exact hcalm.request key
    · rw [hserver] at hm
      exact (hcalm.waiting j m hm).resolve_right id

/-- Every step keeps the keys in their stages. -/
theorem InStages.step (hN : 0 < cfg.numWorkers) (h : InStages job x) {a : Move}
    (hstep : World.Step job x a x') : InStages job x' ∧ ∀ key ∈ job.keys, Advances job key x a x' := by
  unfold World.Step at hstep
  cases a with
  | pop i =>
      obtain rfl := Except.ok.inj (Option.some.inj hstep)
      have hcalm : Calm (fun _ => False) x.server (x.server.pop i) := .pop h.tidy i
      refine ⟨h.of_keeps hcalm.tidy (fun key hk => (h.stages key hk).same ⟨fun _ _ => rfl, rfl,
        hcalm.keeps key, hcalm.request key, fun j m hm _ => ?_⟩) hcalm.keeps hcalm.allocated,
        fun key _ => .of_keeps (hcalm.keeps key) (by simp) rfl⟩
      exact (hcalm.waiting j m hm).resolve_right id
  | execute i =>
      obtain ⟨r, hr, rfl⟩ := map_eq_ok (Option.some.inj hstep)
      exact h.execute hr
  | deliver w key =>
      simp only [World.move] at hstep
      cases hp : x.phase w key with
      | answered r =>
          rw [hp] at hstep
          obtain rfl := Except.ok.inj (Option.some.inj hstep)
          exact h.deliver hp _ _
      | _ =>
          rw [hp] at hstep
          cases hstep
  | request w key =>
      simp only [World.move] at hstep
      split at hstep
      · rename_i hwk
        obtain ⟨hw, hk⟩ := hwk
        have hstage := h.stages key hk
        cases hp : x.phase w key with
        | initPush =>
            rw [hp] at hstep
            exact h.request hk
              ((Handled.initPush hN h.tidy hstage hw hk hp).of_eq_ok (Option.some.inj hstep))
        | registerPush =>
            rw [hp] at hstep
            exact h.request hk
              ((Handled.registerPush h.tidy hstage hw hk hp).of_eq_ok (Option.some.inj hstep))
        | push =>
            rw [hp] at hstep
            exact h.request hk ((Handled.push h.tidy hstage hw hk hp).of_eq_ok (Option.some.inj hstep))
        | pull =>
            rw [hp] at hstep
            exact h.request hk ((Handled.pull h.tidy hstage hw hk hp).of_eq_ok (Option.some.inj hstep))
        | _ =>
            rw [hp] at hstep
            cases hstep
      · cases hstep

theorem inStages_of_reached (hN : 0 < cfg.numWorkers) (h : World.Reached job x) : InStages job x := by
  refine h.invariant ?_ fun x a x' _ hx hstep => (hx.step hN hstep).1
  rintro x rfl
  exact inStages_init hN

/--
**Every phase before the rounds is a barrier.**  In every run, in any mode of the server and
for any order of the requests, every key is in one of its stages, and a step answers a push of
a phase only if it is the last request of that phase, and then one of every worker.  A key is
allocated by its last init push and never again, and its compressor is made by its first
registration, which comes after that.
-/
theorem phases_are_barriers (job : Job α κ cfg codec) (hN : 0 < cfg.numWorkers) {x : World α κ}
    (hx : World.Reached job x) :
    (∀ key ∈ job.keys, Stage job key x) ∧
      x.server.allocated = ∑ key ∈ job.keys with (x.server.store key).tensor.isSome = true,
        State.roundUp (align (job.len key) (job.dtype key)) State.pageSize ∧
      ∀ a x', World.Step job x a x' → ∀ key ∈ job.keys, Advances job key x a x' := by
  have h := inStages_of_reached hN hx
  exact ⟨h.stages, h.allocated, fun a x' hstep => (h.step hN hstep).2⟩

/-- Two workers send their init pushes and the first of them registers its compressor. -/
theorem phases_are_barriers_two : ∃ x : World (Compressor.Cell 32 ℚ) Unit,
    World.Reached (signKey 2) x ∧ Stage (signKey 2) 0 x ∧ acks 0 x.log = [1, 0] ∧
      ((x.server.updateBuf 0).request.map (·.sender)) = [0] := by
  have hrun : ((World.init (defaultConfig 2)).after (signKey 2) (fun _ _ => true)
      [.request 1 0, .request 0 0, .request 0 0]).map (fun x =>
        (acks 0 x.log, (x.server.updateBuf 0).request.map (·.sender))) = some ([1, 0], [0]) := by
    decide +kernel
  obtain ⟨x, hx, heq⟩ := Option.map_eq_some_iff.mp hrun
  obtain ⟨hacks, hrequest⟩ := Prod.mk.inj heq
  have hreached := World.reached_after hx
  exact ⟨x, hreached, (phases_are_barriers (signKey 2) (by decide) hreached).1 0
    (by simp [signKey]), hacks, hrequest⟩

end Runs

end DeepInc.Server
