/-
Every pull is answered in its round.

A pull may come at any time.  If the worker has not got the answer of the last round, it is
answered at once; if it has, it waits for the next round and is answered by the `ALL_RECV`.  The
server finds out which by the tables of the key's engine thread, and these say how far each
worker has got: the window is open as long as some worker lacks the answer of the last round
that was processed, `seen_sender_` holds the workers who have it, and `q_pull_reqmeta_` the
pulls that wait for the next one.

Every answer is given to the one pull of its worker that has none yet, after the round of that
pull was processed and before the next one is issued.  So no pull is answered twice, none with a
round that is not its own, and at no time is more than one pull of a worker without an answer.

No `CHECK` of the handler fails, but for the one that asks for memory.  All of this is of the
synchronous mode and of a server whose tables were resized, which `start_server` does not do.
-/
import DeepInc.Proofs.Server.Simulation

namespace DeepInc.Server

open Outcome Transition

variable {α κ : Type} {cfg : Config} {codec : Codec α κ}

/-! ### Counting in the whole record -/

section Counts

variable {key : Key} {w : ℕ} (log : List (Event α))

/-- What counts events of a key does not see the others. -/
theorem countP_ofKey {p : Event α → Bool} (hp : ∀ e, p e = true → e.key = key) :
    (log.filter fun e => e.key = key).countP p = log.countP p := by
  rw [List.countP_filter]
  refine List.countP_congr fun e _ => ?_
  constructor
  · intro h
    exact (Bool.and_eq_true_iff.mp h).1
  · intro h
    exact Bool.and_eq_true_iff.mpr ⟨h, decide_eq_true (hp e h)⟩

@[simp] theorem issuedRounds_ofKey :
    issuedRounds key (log.filter fun e => e.key = key) = issuedRounds key log := by
  refine countP_ofKey log fun e he => ?_
  cases e with
  | issued k ops =>
      cases ops with
      | allRecv => simp [Event.isIssue] at he; exact he
      | _ => cases he
  | _ => cases he

@[simp] theorem publishedRounds_ofKey :
    publishedRounds key (log.filter fun e => e.key = key) = publishedRounds key log := by
  refine countP_ofKey log fun e he => ?_
  cases e with
  | published k content len => simp [Event.isResult] at he; exact he
  | _ => cases he

@[simp] theorem pulls_ofKey :
    pulls w key (log.filter fun e => e.key = key) = pulls w key log := by
  refine countP_ofKey log fun e he => ?_
  cases e with
  | pullRequest k u => simp [Event.isPull] at he; exact he.1
  | _ => cases he

@[simp] theorem responses_ofKey :
    responses w key (log.filter fun e => e.key = key) = responses w key log := by
  refine countP_ofKey log fun e he => ?_
  cases e with
  | pullResponse r => simp [Event.isResponse] at he; exact he.1
  | _ => cases he

@[simp] theorem deliveries_ofKey :
    deliveries w key (log.filter fun e => e.key = key) = deliveries w key log := by
  refine countP_ofKey log fun e he => ?_
  cases e with
  | delivered r content => simp [Event.isDelivery] at he; exact he.1
  | _ => cases he

end Counts

/-! ### The law of a key

The law is stated over the tables of the server and its record, in the words of the source.  The
invariant of a slot implies it.
-/

/-- What the tables of a key's engine thread hold. -/
structure WindowLaw (cfg : Config) (key : Key) (log : List (Event α)) (win : Window) : Prop where
  count : win.pullCnt = win.seenSender.card
  lt : win.pullCnt < cfg.numWorkers
  closed : win.isPushFinished ≠ some true → win.seenSender = ∅ ∧ win.pullCnt = 0
  opened : win.isPushFinished = some true → ∀ req ∈ win.qPullReqmeta, req.sender ∈ win.seenSender
  /-- the window of a round closes when all workers have been answered in it -/
  closes : win.isPushFinished = some true ↔
    ∃ w < cfg.numWorkers, responses w key log < publishedRounds key log
  /-- a pull is buffered as long as it has no answer -/
  buffered : ∀ w < cfg.numWorkers,
    pulls w key log = responses w key log + (win.qPullReqmeta.map (·.sender)).count w

/-- What holds of the pulls of a key. -/
structure PullLaw (cfg : Config) (x : World α κ) (key : Key) : Prop where
  placed : ∀ t, x.server.hashCache key = some t →
    t < cfg.engineThreadNum ∧ WindowLaw cfg key x.log (x.server.window t key)
  unplaced : x.server.hashCache key = none → ∀ w, pulls w key x.log = 0
  rounds : publishedRounds key x.log ≤ issuedRounds key x.log ∧
    issuedRounds key x.log ≤ publishedRounds key x.log + 1
  answers : ∀ w < cfg.numWorkers, responses w key x.log ≤ publishedRounds key x.log ∧
    publishedRounds key x.log ≤ responses w key x.log + 1
  /-- every answer is for the one pull without an answer, and comes in its round -/
  onTime : ∀ e past, (e :: past) <:+ x.log → e.key = key → OnTime key e past

/-- A window of a slot in its rounds keeps the law. -/
theorem Slot.Running.windowLaw {job : Job α κ cfg codec} {key : Key} {v : Slot α κ}
    (h : Slot.Running job key v) (hN : 0 < cfg.numWorkers) :
    WindowLaw cfg key v.log v.window := by
  have hseen : ∀ w, v.phase w = .pullWait → w < cfg.numWorkers ∧
      responses w key v.log = publishedRounds key v.log := by
    intro w hp
    have hw := h.lt_of_phase hp (by simp)
    exact ⟨hw, (h.workers w hw).fresh hp⟩
  refine ⟨h.window.count, ?_, fun hclosed => ?_, fun hopen req hreq => ?_, h.window.opened,
    fun w hw => ?_⟩
  · rw [h.window.count]
    exact h.window.card_lt hN
  · have hempty := h.window.seen_of_closed hclosed
    exact ⟨hempty, by rw [h.window.count, hempty]; rfl⟩
  · have hwait := (h.window.waiting req.sender).mp (List.mem_map_of_mem hreq)
    exact (h.window.seen _).mpr ⟨hopen, hseen _ hwait.2⟩
  · rw [h.window.nodup.count, (h.workers w hw).pulled]
    congr 1
    by_cases hp : v.phase w = .pullWait
    · rw [if_pos ((h.window.waiting w).mpr ⟨hw, hp⟩), hp]
      rfl
    · rw [if_neg fun hmem => hp ((h.window.waiting w).mp hmem).2]
      cases hq : v.phase w <;> first | rfl | exact absurd hq hp

/-- A window nobody has used keeps the law. -/
theorem Slot.Fresh.windowLaw {key : Key} {v : Slot α κ} (h : Slot.Fresh key v)
    (hN : 0 < cfg.numWorkers) : WindowLaw cfg key v.log v.window := by
  rw [h.window]
  refine ⟨rfl, hN, fun _ => ⟨rfl, rfl⟩, by simp [Window.absent], ?_, fun w _ => ?_⟩
  · simp [Window.absent, h.published]
  · simp [Window.absent, h.pulls, h.responses]

namespace Slot

/-- The law, as a slot sees it. -/
structure PullLaw (cfg : Config) (key : Key) (v : Slot α κ) : Prop where
  window : WindowLaw cfg key v.log v.window
  unplaced : v.hashed = false → ∀ w, pulls w key v.log = 0
  rounds : publishedRounds key v.log ≤ issuedRounds key v.log ∧
    issuedRounds key v.log ≤ publishedRounds key v.log + 1
  answers : ∀ w < cfg.numWorkers, responses w key v.log ≤ publishedRounds key v.log ∧
    publishedRounds key v.log ≤ responses w key v.log + 1
  onTime : Always (OnTime key) v.log

theorem Fresh.pullLaw {key : Key} {v : Slot α κ} (h : Fresh key v) (hN : 0 < cfg.numWorkers) :
    PullLaw cfg key v :=
  ⟨h.windowLaw hN, fun _ => h.pulls, by simp [h.published, h.issued],
    fun w _ => by simp [h.published, h.responses], h.onTime⟩

theorem Inv.pullLaw {job : Job α κ cfg codec} {key : Key} {v : Slot α κ} (h : Inv job key v)
    (hN : 0 < cfg.numWorkers) : PullLaw cfg key v := by
  cases h with
  | init h _ _ => exact h.fresh.pullLaw hN
  | register h _ _ => exact h.fresh.pullLaw hN
  | running h =>
      refine ⟨h.windowLaw hN, fun hnot w => ?_, ⟨h.published_le, h.issued_le⟩,
        fun w hw => ⟨(h.workers w hw).lead, (h.workers w hw).lag⟩, h.onTime⟩
      by_contra hpos
      rw [h.hashed w (.inr (Nat.pos_of_ne_zero hpos))] at hnot
      cases hnot

end Slot

/-- What the slot of a key says of the whole. -/
theorem World.pullLaw_of_view {x : World α κ} {key : Key}
    (h : Slot.PullLaw cfg key (x.view key)) (hs : ∀ t, x.server.hashCache key = some t →
      t < cfg.engineThreadNum) : PullLaw cfg x key := by
  have hlog : (x.view key).log = x.log.filter fun e => e.key = key := rfl
  refine ⟨fun t ht => ⟨hs t ht, ?_⟩, fun hnone w => ?_, ?_, fun w hw => ?_, fun e past hp hkey => ?_⟩
  · have hwindow : (x.view key).window = x.server.window t key := by
      simp [World.view, State.view, ht]
    have hlaw := h.window
    rw [hwindow] at hlaw
    refine ⟨hlaw.count, hlaw.lt, hlaw.closed, hlaw.opened, ?_, fun w hw => ?_⟩
    · simpa [hlog] using hlaw.closes
    · simpa [hlog] using hlaw.buffered w hw
  · simpa [hlog] using h.unplaced (by simp [World.view, State.view, hnone]) w
  · simpa [hlog] using h.rounds
  · simpa [hlog] using h.answers w hw
  · have hpast := Always.of_filter (by rw [← hlog]; exact h.onTime) hp (decide_eq_true hkey)
    intro r hr
    simpa using hpast r hr

variable [Zero α] [Add α]

/--
**Every pull is answered once, in its round.**  In every state the server and its
workers reach, the pulls of every key keep the law, and the only `CHECK` the next step
can fail is the one on `posix_memalign`.
-/
theorem pulls_answered_in_round (job : Job α κ cfg codec) (hcfg : cfg.RunsSync) {x : World α κ}
    (hx : World.Reached job x) :
    (∀ key ∈ job.keys, PullLaw cfg x key) ∧
      ∀ a f, x.move job a = some (.error f) → ∃ c, f = .check c ∧ c.site = .pageAlignedMalloc := by
  have hinv := World.inv_of_reached hcfg hx
  refine ⟨fun key hk => ?_, fun a f ha => ?_⟩
  · exact World.pullLaw_of_view ((hinv.slots key hk).pullLaw hcfg.numWorkers) (hinv.sound.hash_lt key)
  · exact ⟨.posixMemalign, (hinv.move hcfg ha).of_error.1, rfl⟩

/-! ### Runs of a few workers -/

/-- The answer a record ends with, and what was before it. -/
def lastAnswer {α : Type} : List (Event α) → Option (Response α × List (Event α))
  | .pullResponse r :: past => some (r, past)
  | _ => none

theorem lastAnswer_eq_some {α : Type} {log past : List (Event α)} {r : Response α}
    (h : lastAnswer log = some (r, past)) : log = .pullResponse r :: past := by
  unfold lastAnswer at h
  split at h
  · cases h
    rfl
  · cases h

/-- The delivery a record ends with, and what was before it. -/
def lastDelivery {α : Type} : List (Event α) → Option (Response α × Mem α × List (Event α))
  | .delivered r content :: past => some (r, content, past)
  | _ => none

theorem lastDelivery_eq_some {α : Type} {log past : List (Event α)} {r : Response α}
    {content : Mem α} (h : lastDelivery log = some (r, content, past)) :
    log = .delivered r content :: past := by
  unfold lastDelivery at h
  split at h
  · cases h
    rfl
  · cases h

/-- A server for `n` workers, with every knob at its default. -/
def defaultConfig (n : ℕ) : Config := initGlobalEnv (fun _ => none) n 0

/-- Its range begins with the key 0. -/
theorem defaultConfig_zero (n : ℕ) :
    ∀ key ∈ ({0} : Finset Key), key + (defaultConfig n).keyBegin < 2 ^ 64 := by
  simp [defaultConfig, initGlobalEnv]

/-- A key of one element, which `n` workers push without compression. -/
def singleKey (n : ℕ) : Job ℤ Unit (defaultConfig n) noCompressor where
  keys := {0}
  len _ := 4
  dtype _ := .float32
  compressed _ := false
  init _ _ _ := 0
  content _ _ := 0
  contentLen _ := 0
  pushed w _ r _ := 10 * r + w + 1
  pushedLen _ _ _ := 4
  keys_lt := defaultConfig_zero n
  pushedLen_pos _ _ _ := by decide
  pushedLen_le _ _ _ := Nat.le_refl 4
  pushedLen_eq _ _ _ _ := rfl
  created _ h := by cases h

/-- Two workers take two rounds.  The first pull comes before the other worker has pushed, and its
answer after that worker has begun the next round. -/
theorem pulls_answered_in_round_two : ∃ x, World.Reached (singleKey 2) x ∧
    (deliveries 0 0 x.log, deliveries 1 0 x.log) = (2, 2) ∧ PullLaw (defaultConfig 2) x 0 := by
  have hrun : ((World.init (defaultConfig 2)).after (singleKey 2) (fun _ _ => true)
      [.request 0 0, .request 1 0, .request 0 0, .request 0 0, .request 1 0,
      .pop 0, .execute 0, .pop 0, .execute 0, .pop 0, .execute 0,
      .request 1 0, .deliver 1 0, .request 1 0, .deliver 0 0, .request 0 0,
      .pop 0, .execute 0, .pop 0, .execute 0, .pop 0, .execute 0,
      .request 0 0, .request 1 0, .deliver 0 0, .deliver 1 0]).map
        (fun x => (deliveries 0 0 x.log, deliveries 1 0 x.log)) = some (2, 2) := by decide +kernel
  obtain ⟨x, hx, hdel⟩ := Option.map_eq_some_iff.mp hrun
  have hreached := World.reached_after hx
  exact ⟨x, hreached, hdel, (pulls_answered_in_round (singleKey 2)
    ⟨rfl, rfl, by decide, by decide⟩ hreached).1 0 (by simp [singleKey])⟩

end DeepInc.Server
