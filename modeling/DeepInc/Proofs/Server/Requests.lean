/-
What the handler does to the slot of a key.

The handler is one function with many branches: init pushes, registrations, pushes in several
modes and pulls.  Each branch, taken by a worker that keeps to its phases, succeeds and is the
operation of the same name on the slot.  Which branch a request takes is decided by what the
server has stored of the key, so that is settled at the end, when it is known what the phase of
the worker says about it.

The one thing that can go wrong is that an init push finds no memory.  The other checks are
about the message, which is made as the server wants it, or about what has been stored before.

A key is placed once, at the thread with the least load.  The search starts from the greatest
number there is and would find no thread if all loads were that large.  They are not: the bytes
a load counts were allocated, and `unplaced` is what is still to be counted.
-/
import DeepInc.Proofs.Server.Threads
import DeepInc.Proofs.Server.View

namespace DeepInc.Server

open Outcome PriorityQueue

variable {α κ : Type} {cfg : Config} {codec : Codec α κ}

/-- The only way a request can end the server: there is no memory for a key that has none yet. -/
def NoMemory (job : Job α κ cfg codec) (s : State α κ) (f : Fault) : Prop :=
  f = .check .posixMemalign ∧ ∃ key ∈ job.keys, (s.store key).tensor = none ∧
    State.memalignOk s.allocated (align (job.len key) (job.dtype key)) = false

namespace Slot

theorem Appends.trans {p a p' b p'' : List (Work α)} (h : Appends cfg p a p')
    (h' : Appends cfg p' b p'') : Appends cfg p (a ++ b) p'' := by
  refine ⟨?_, fun hf => ?_⟩
  · rw [← List.append_assoc]
    exact h'.1.trans (h.1.append_right b)
  · rw [h'.2 hf, h.2 hf, List.append_assoc]

end Slot

namespace State

variable {job : Job α κ cfg codec} {key : Key} {s s' : State α κ}

/-! ### Placing a key

The loads and the bytes that are not yet counted in one stay below the memory that was
allocated.  Placing a key moves its bytes from the second to the first.
-/

/-- Placing a key takes its bytes out of the unplaced ones. -/
theorem sum_unplaced (hk : key ∈ job.keys) (hkept : ∀ k, k ≠ key → Kept cfg k s s') :
    ∑ k ∈ job.keys, s'.unplaced job k + s.unplaced job key =
      ∑ k ∈ job.keys, s.unplaced job k + s'.unplaced job key := by
  have hrest : ∑ k ∈ job.keys.erase key, s'.unplaced job k =
      ∑ k ∈ job.keys.erase key, s.unplaced job k := by
    refine Finset.sum_congr rfl fun k hk' => ?_
    have h := hkept k (Finset.ne_of_mem_erase hk')
    simp only [unplaced, h.store, h.hashCache]
  rw [← Finset.add_sum_erase _ _ hk, ← Finset.add_sum_erase _ _ hk, hrest]
  omega

/-- The state in which thread `i` has taken `key`. -/
def place (s : State α κ) (key : Key) (i len : ℕ) : State α κ :=
  { s with
    accLoad := s.accLoad.set i (s.accLoad.get i + len)
    hashCache := Function.update s.hashCache key (some i) }

theorem Sound.place (h : s.Sound job) (hk : key ∈ job.keys)
    (hs : (s.store key).tensor.isSome = true) (hh : s.hashCache key = none) {i len : ℕ}
    (hle : len ≤ job.len key) (hi : i < cfg.engineThreadNum) :
    Serves job key s (s.place key i len) := by
  have hkept : ∀ k, k ≠ key → Kept cfg k s (s.place key i len) := fun k hne =>
    ⟨rfl, rfl, rfl, Function.update_of_ne hne _ _, fun _ => rfl, fun _ => .refl _, fun _ _ => rfl⟩
  have hhash : ∀ k, k ≠ key → (s.place key i len).hashCache k = s.hashCache k :=
    fun k hne => (hkept k hne).hashCache
  have hself : (s.place key i len).hashCache key = some i := Function.update_self ..
  refine ⟨⟨h.queues, h.loads, h.tables, h.schedule, fun k t hkt => ?_, fun j m hm => ?_, h.stored,
    fun k hkn => ?_, fun k hkn => ?_, fun j => ?_, h.room⟩, hkept⟩
  · by_cases hne : k = key
    · subst hne
      rw [hself] at hkt
      exact Option.some.inj hkt ▸ hi
    · rw [hhash k hne] at hkt
      exact h.hash_lt k t hkt
  · obtain ⟨hmk, hmh, hmade⟩ := h.placed j m hm
    have hne : m.key ≠ key := by
      rintro rfl
      rw [hh] at hmh
      cases hmh
    exact ⟨hmk, (hhash m.key hne).trans hmh, hmade⟩
  · by_cases hne : k = key
    · subst hne
      rw [hself] at hkn
      cases hkn
    · rw [hhash k hne] at hkn
      exact h.blank k hkn
  · by_cases hne : k = key
    · subst hne
      exact hs
    · rw [hhash k hne] at hkn
      exact h.hashed k hkn
  · have hsum := sum_unplaced hk hkept
    have hold : s.unplaced job key = job.len key := if_pos ⟨hs, hh⟩
    have hnew : (s.place key i len).unplaced job key = 0 := by
      refine if_neg fun hc => ?_
      rw [hself] at hc
      cases hc.2
    rw [hold, hnew] at hsum
    show (s.accLoad.set i (s.accLoad.get i + len)).get j + _ ≤ s.allocated
    by_cases hj : j = i
    · subst hj
      have := h.load j
      rw [Vec.set_get_self]
      omega
    · have := h.load j
      rw [Vec.set_get_ne _ hj]
      omega

theorem Sound.view_place (h : s.Sound job) (hh : s.hashCache key = none) {i len : ℕ}
    (phase : ℕ → Phase α) (round : ℕ → ℕ) (log : List (Event α)) :
    (s.place key i len).view key phase round log =
      { s.view key phase round log with hashed := true } := by
  have hself : (s.place key i len).hashCache key = some i := Function.update_self ..
  have hpending : ofKey key (s.waiting i) = [] := by
    refine List.filter_eq_nil_iff.mpr fun m hm hkey => ?_
    have := (h.placed i m hm).2.1
    rw [of_decide_eq_true hkey, hh] at this
    cases this
  have hwindow : s.window i key = .absent := h.blank key hh i
  have hw : (s.place key i len).waiting i = s.waiting i := rfl
  have hwin : (s.place key i len).window i key = s.window i key := rfl
  simp only [view, hself, hh, hw, hwin, Option.elim_some, Option.elim_none, hpending, hwindow,
    Option.isSome_some, List.map_nil]
  rfl

/-- A stored key has an engine thread, or is given one. -/
theorem Sound.getThreadID (h : s.Sound job) (hn : 0 < cfg.engineThreadNum)
    (hk : key ∈ job.keys) (hs : (s.store key).tensor.isSome = true) {len : ℕ} (hlen : 0 < len)
    (hle : len ≤ job.len key) :
    ∃ t s', s.getThreadID cfg key len = .ok (t, s') ∧ Serves job key s s' ∧
      s'.hashCache key = some t ∧ s'.store = s.store ∧ s'.updateBuf = s.updateBuf ∧
      ∀ phase round log, s'.view key phase round log =
        { s.view key phase round log with hashed := true } := by
  unfold State.getThreadID
  cases hh : s.hashCache key with
  | some t =>
      refine ⟨t, s, rfl, .refl h, hh, rfl, rfl, fun phase round log => ?_⟩
      simp [view, hh]
  | none =>
      have hsum : s.unplaced job key = job.len key := if_pos ⟨hs, hh⟩
      have hunplaced : job.len key ≤ ∑ k ∈ job.keys, s.unplaced job k := by
        rw [← hsum]
        exact Finset.single_le_sum (f := s.unplaced job) (fun _ _ => Nat.zero_le _) hk
      have hload : ∀ i, s.accLoad.get i + len ≤ s.allocated := by
        intro i
        have := h.load i
        omega
      have hroom : s.allocated + 4096 ≤ 2 ^ 64 := h.room
      obtain ⟨i, hi⟩ := minLoadLoop_isSome s.accLoad.get hn fun i _ => by
        have := hload i
        omega
      have hilt := minLoadLoop_lt _ _ _ hi
      have hmod : (s.accLoad.get i + len) % 2 ^ 64 = s.accLoad.get i + len :=
        Nat.mod_eq_of_lt (by have := hload i; omega)
      simp only [Nat.ne_of_gt hlen, if_false, check_ok hlen, check_ok h.loads, hi, check_ok hilt,
        hmod]
      exact ⟨i, _, rfl, h.place hk hs hh hle hilt, Function.update_self .., rfl, rfl,
        fun phase round log => h.view_place hh phase round log⟩

/-! ### Queueing a message -/

theorem Sound.pushMessage (h : s.Sound job) {t : ℕ} {m : EngineMessage α}
    (hk : m.key ∈ job.keys) (hh : s.hashCache m.key = some t) (hm : m.MadeFor job) :
    Serves job m.key s (s.pushMessage t m) := by
  refine ⟨⟨h.queues, h.loads, fun v hv => ?_, fun i => ?_, h.hash_lt, fun i m' hm' => ?_, h.stored,
    h.blank, h.hashed, h.load, h.room⟩, fun k hne => ?_⟩
  · rw [← h.tables v hv]
    cases v <;> rfl
  · show ((s.engineQueues.set t ((s.engineQueues.get t).push m)).get i).enableSchedule = _
    by_cases hi : i = t
    · subst hi
      rw [Vec.set_get_self, push_enableSchedule]
      exact h.schedule i
    · rw [Vec.set_get_ne _ hi]
      exact h.schedule i
  · by_cases hi : i = t
    · subst hi
      rcases List.mem_append.mp ((s.waiting_pushMessage_self i m).subset hm') with hold | hnew
      · exact h.placed i m' hold
      · obtain rfl := List.mem_singleton.mp hnew
        exact ⟨hk, hh, hm⟩
    · rw [s.waiting_pushMessage_ne hi] at hm'
      exact h.placed i m' hm'
  · have hother : ∀ l : List (EngineMessage α), ofKey k (l ++ [m]) = ofKey k l := by
      intro l
      simp [ofKey, Ne.symm hne]
    refine ⟨rfl, rfl, rfl, rfl, fun _ => rfl, fun i => ?_, fun hf i => ?_⟩
    · by_cases hi : i = t
      · subst hi
        rw [← hother (s.waiting i)]
        exact (s.waiting_pushMessage_self i m).filter _
      · rw [s.waiting_pushMessage_ne hi]
    · by_cases hi : i = t
      · subst hi
        rw [waiting_pushMessage_fifo ((h.schedule i).trans hf), hother]
      · rw [s.waiting_pushMessage_ne hi]

/-- A message for the key is more pending work of its slot. -/
theorem Sound.view_pushMessage (h : s.Sound job) {t : ℕ} {m : EngineMessage α}
    (hh : s.hashCache m.key = some t) (phase : ℕ → Phase α) (round : ℕ → ℕ)
    (log : List (Event α)) :
    ∃ pending, Slot.Appends cfg (s.view m.key phase round log).pending [m.work] pending ∧
      (s.pushMessage t m).view m.key phase round log =
        { s.view m.key phase round log with pending := pending } := by
  have hh' : (s.pushMessage t m).hashCache m.key = some t := hh
  refine ⟨(ofKey m.key ((s.pushMessage t m).waiting t)).map (·.work), ⟨?_, fun hf => ?_⟩, ?_⟩
  · simp only [view, hh, Option.elim_some]
    refine (((s.waiting_pushMessage_self t m).filter _).map _).trans ?_
    simp [ofKey]
  · simp only [view, hh, Option.elim_some]
    rw [waiting_pushMessage_fifo ((h.schedule t).trans hf)]
    simp [ofKey]
  · simp only [view, hh, hh', Option.elim_some]
    rfl

theorem Sound.enqueue (h : s.Sound job) {t : ℕ} {m : EngineMessage α}
    (hh : s.hashCache m.key = some t) : s.enqueue t m = .ok (s.pushMessage t m) := by
  have hlt : t < s.engineQueues.size := h.queues ▸ h.hash_lt _ _ hh
  simp [State.enqueue, inRange, hlt]
  rfl

/-- `ClearCounter` on the queue of thread `t`. -/
def clearCounter (s : State α κ) (t : ℕ) (key : Key) : State α κ :=
  { s with engineQueues := s.engineQueues.set t ((s.engineQueues.get t).clearCounter key) }

theorem waiting_clearCounter (s : State α κ) (t : ℕ) (key : Key) (i : ℕ) :
    (s.clearCounter t key).waiting i = s.waiting i := by
  by_cases hi : i = t
  · subst hi
    simp [waiting, clearCounter]
  · simp [waiting, clearCounter, hi]

theorem Sound.clearCounter (h : s.Sound job) (t : ℕ) (key : Key) :
    Serves job key s (s.clearCounter t key) := by
  refine ⟨⟨h.queues, h.loads, fun v hv => ?_, fun i => ?_, h.hash_lt, fun i m hm => ?_, h.stored,
    h.blank, h.hashed, h.load, h.room⟩, fun k _ => ?_⟩
  · rw [← h.tables v hv]
    cases v <;> rfl
  · show ((s.engineQueues.set t ((s.engineQueues.get t).clearCounter key)).get i).enableSchedule = _
    by_cases hi : i = t
    · subst hi
      rw [Vec.set_get_self, clearCounter_enableSchedule]
      exact h.schedule i
    · rw [Vec.set_get_ne _ hi]
      exact h.schedule i
  · rw [waiting_clearCounter] at hm
    exact h.placed i m hm
  · exact ⟨rfl, rfl, rfl, rfl, fun _ => rfl, fun i => by rw [waiting_clearCounter],
      fun _ i => by rw [waiting_clearCounter]⟩

theorem view_clearCounter (s : State α κ) (t : ℕ) (key k : Key) (phase : ℕ → Phase α)
    (round : ℕ → ℕ) (log : List (Event α)) :
    (s.clearCounter t key).view k phase round log = s.view k phase round log := by
  simp only [view, waiting_clearCounter]
  rfl

/-! ### The branches of the handler -/

section Push

variable [Zero α] (phase : ℕ → Phase α) (round : ℕ → ℕ) (log : List (Event α))

/-- The last push of a round leaves an `ALL_RECV` behind. -/
theorem Sound.completeRound (h : s.Sound job) (hblock : cfg.isEngineBlocking = false)
    (hk : key ∈ job.keys) (hs : (s.store key).tensor.isSome = true) {t : ℕ}
    (hh : s.hashCache key = some t) (w len : ℕ) :
    ∃ s' pending,
      s.completeRound cfg t key (job.reqMeta w key .kDefaultPushPull true) len =
        .ok (s', [.issued key .allRecv]) ∧
      Serves job key s s' ∧
      Slot.Appends cfg (s.view key phase round log).pending [.done] pending ∧
      s'.view key phase round log = { s.view key phase round log with pending := pending } := by
  set m := s.allRecvMessage key (job.reqMeta w key .kDefaultPushPull true) with hm
  have hmade : m.MadeFor job := ⟨rfl, (h.stored key hs).1, rfl, .inl ⟨rfl, rfl⟩⟩
  have hserves := h.pushMessage (m := m) hk hh hmade
  obtain ⟨pending, happ, hview⟩ := h.view_pushMessage (m := m) hh phase round log
  refine ⟨(s.pushMessage t m).clearCounter t key, pending, ?_,
    hserves.trans (hserves.sound.clearCounter t key), happ, ?_⟩
  · unfold State.completeRound
    simp only [hblock, Bool.false_eq_true, if_false, ← hm, h.enqueue (m := m) hh]
    rfl
  · rw [view_clearCounter]
    exact hview

variable [Add α]

/-- The data of a push joins the pending work. -/
theorem Sound.accumulate (h : s.Sound job) (hsync : cfg.syncMode = true)
    (hblock : cfg.isEngineBlocking = false) (hk : key ∈ job.keys)
    (hs : (s.store key).tensor.isSome = true) {t : ℕ} (hh : s.hashCache key = some t) (w : ℕ)
    (vals : Mem α) {len : ℕ} (hlen : 0 < len) (hle : len ≤ job.len key) :
    let v := s.view key phase round log
    ∃ s' pending,
      s.accumulate cfg t key (job.reqMeta w key .kDefaultPushPull true)
          (Job.pushData cfg key vals len) len =
        .ok (s', [.issued key (if v.request = [] then .copyFirst else .sumRecv)]) ∧
      Serves job key s s' ∧ s'.hashCache = s.hashCache ∧ s'.store = s.store ∧
      s'.updateBuf = s.updateBuf ∧
      Slot.Appends cfg v.pending [if v.request = [] then .first vals len else .more vals len]
        pending ∧
      s'.view key phase round log = { v with pending := pending } := by
  intro v
  set req := job.reqMeta w key .kDefaultPushPull true
  set data := Job.pushData cfg key vals len with hdata
  have hsrc : data.data = some (.vals vals) := if_neg (Nat.ne_of_gt hlen)
  have hmade : ∀ ops, ops = .copyFirst ∨ ops = .sumRecv →
      (s.dataMessage key req data ops).MadeFor job := fun ops hops =>
    ⟨rfl, (h.stored key hs).1, rfl, .inr ⟨hops, hsrc, len, rfl, hle⟩⟩
  have hrequest : (s.updateBuf key).request = [] ↔ v.request = [] := by
    simp [v, view]
  unfold State.accumulate
  by_cases hempty : v.request = []
  · set m := s.dataMessage key req data .copyFirst with hm
    have hserves := h.pushMessage (m := m) hk hh (hmade _ (.inl rfl))
    obtain ⟨pending, happ, hview⟩ := h.view_pushMessage (m := m) hh phase round log
    refine ⟨_, pending, ?_, hserves, rfl, rfl, rfl, ?_, hview⟩
    · rw [if_pos (hrequest.mpr hempty), if_pos hsync, if_pos hempty]
      simp only [h.enqueue (m := m) hh]
      rfl
    · rw [if_pos hempty]
      exact happ
  · set m := s.dataMessage key req data .sumRecv with hm
    have hserves := h.pushMessage (m := m) hk hh (hmade _ (.inr rfl))
    obtain ⟨pending, happ, hview⟩ := h.view_pushMessage (m := m) hh phase round log
    refine ⟨_, pending, ?_, hserves, rfl, rfl, rfl, ?_, hview⟩
    · rw [if_neg (fun hc => hempty (hrequest.mp hc)), check_ok hsync, if_neg hempty]
      simp only [hblock, Bool.false_eq_true, if_false, h.enqueue (m := m) hh]
      rfl
    · rw [if_neg hempty]
      exact happ

/-- A push joins the round, and the last one completes it. -/
theorem Sound.push (h : s.Sound job) (hn : 0 < cfg.engineThreadNum)
    (hsync : cfg.syncMode = true) (hblock : cfg.isEngineBlocking = false)
    (hk : key ∈ job.keys) (hs : (s.store key).tensor.isSome = true) (w : ℕ) (vals : Mem α)
    {len : ℕ} (hlen : 0 < len) (hle : len ≤ job.len key) :
    let v := s.view key phase round log
    ∃ s' pending,
      s.push cfg key (job.reqMeta w key .kDefaultPushPull true) (Job.pushData cfg key vals len) len =
        .ok (s', (v.pushed cfg.numWorkers key w pending).2) ∧
      Serves job key s s' ∧
      Slot.Appends cfg v.pending ((if v.request = [] then .first vals len else .more vals len) ::
        if v.request.length + 1 = cfg.numWorkers then [.done] else []) pending ∧
      s'.view key phase round log = (v.pushed cfg.numWorkers key w pending).1 := by
  intro v
  obtain ⟨t, s₁, hid, hserves₁, hh₁, hstore₁, hupdate₁, hview₁⟩ := h.getThreadID hn hk hs hlen hle
  have hs₁ : (s₁.store key).tensor.isSome = true := by rw [hstore₁]; exact hs
  obtain ⟨s₂, pending₂, hacc, hserves₂, hhash₂, hstore₂, hupdate₂, happ₂, hview₂⟩ :=
    hserves₁.sound.accumulate phase round log hsync hblock hk hs₁ hh₁ w vals hlen hle
  simp only [hview₁] at hacc happ₂ hview₂
  have hupdate : s₂.updateBuf = s.updateBuf := hupdate₂.trans hupdate₁
  have hlength : ((s₂.updateBuf key).request ++ [job.reqMeta w key .kDefaultPushPull true]).length =
      v.request.length + 1 := by
    rw [hupdate]
    simp [v, view]
  unfold State.push Slot.pushed
  rw [hid]
  simp only [bind, Except.bind, hacc, hlength, hsync, true_and]
  by_cases hlast : v.request.length + 1 = cfg.numWorkers
  · obtain ⟨s₃, pending₃, hdone, hserves₃, happ₃, hview₃⟩ :=
      hserves₂.sound.completeRound phase round log hblock hk (by rw [hstore₂]; exact hs₁)
        (by rw [hhash₂]; exact hh₁) w len
    refine ⟨s₃.setRequest key [], pending₃, ?_, (hserves₁.trans hserves₂).trans (hserves₃.trans
      (.of_local hserves₃.sound (.setRequest ..))), ?_, ?_⟩
    · simp only [if_pos hlast, hdone]
      simp [v, Job.reqMeta]
    · rw [if_pos hlast]
      rw [hview₂] at happ₃
      exact happ₂.trans happ₃
    · rw [if_pos hlast, view_setRequest, hview₃, hview₂]
      rfl
  · set req := job.reqMeta w key .kDefaultPushPull true
    refine ⟨s₂.setRequest key ((s₂.updateBuf key).request ++ [req]), pending₂, ?_,
      (hserves₁.trans hserves₂).trans
      (.of_local hserves₂.sound (.setRequest ..)), ?_, ?_⟩
    · simp only [if_neg hlast]
      simp [v, req, Job.reqMeta]
    · rw [if_neg hlast]
      exact happ₂
    · rw [if_neg hlast, view_setRequest, hview₂, hupdate]
      simp [v, view, req, Job.reqMeta]

end Push

section Init

variable (phase : ℕ → Phase α) (round : ℕ → ℕ) (log : List (Event α))

/-- A registration finds the compressor of the key, or makes it. -/
theorem Sound.register (h : s.Sound job) (hs : (s.store key).tensor.isSome = true)
    (hc : job.compressed key = true) (w : ℕ) :
    let v := s.view key phase round log
    ∃ s' c,
      s.registerCompressor cfg codec key (job.reqMeta w key .kCompressedPushPull true)
          (Job.pushData cfg key (job.content key) (job.contentLen key)) =
        .ok (s', (v.registered cfg.numWorkers key w c).2) ∧
      Serves job key s s' ∧
      s'.view key phase round log = (v.registered cfg.numWorkers key w c).1 := by
  intro v
  set req := job.reqMeta w key .kCompressedPushPull true
  unfold registerCompressor Slot.registered
  cases hmap : s.compressorMap key with
  | some c =>
      have hv : ({ v with compressor := some (v.compressor.getD c) } : Slot α κ) = v := by
        simp [v, view, hmap]
      refine ⟨(s.collectInit cfg key req).1, c, ?_, .of_local h (.collectInit cfg s key req), ?_⟩
      · rw [hv, ← show req.sender = w from rfl, ← view_collectInit s key phase round log cfg req]
      · rw [hv, ← show req.sender = w from rfl, ← view_collectInit s key phase round log cfg req]
  | none =>
      obtain ⟨c, hcreate⟩ := Option.isSome_iff_exists.mp (job.created key hc)
      obtain ⟨hlen, hdtype⟩ := h.stored key hs
      have hv : ({ v with compressor := some (v.compressor.getD c) } : Slot α κ) =
          (s.setCompressor key c).view key phase round log := by
        rw [view_setCompressor]
        simp [v, view, hmap]
      refine ⟨((s.setCompressor key c).collectInit cfg key req).1, c, ?_,
        .of_local h ((Local.setCompressor s key c).trans (.collectInit cfg _ key req)), ?_⟩
      · simp only [Job.pushData, hlen, hdtype, hcreate, hv]
        rw [← show req.sender = w from rfl, ← view_collectInit _ key phase round log cfg req]
      · rw [hv, ← show req.sender = w from rfl, ← view_collectInit _ key phase round log cfg req]

theorem le_roundUp (x : ℕ) {y : ℕ} (hy : 0 < y) : x ≤ roundUp x y := by
  unfold roundUp
  have := Nat.div_add_mod (x + y - 1) y
  have := Nat.mod_lt (x + y - 1) hy
  rw [Nat.mul_comm]
  omega

theorem ensures_pageAlignedMalloc (s : State α κ) (size : ℕ) :
    Ensures (s.pageAlignedMalloc size) (fun s' =>
      s' = { s with allocated := s.allocated + roundUp size pageSize } ∧
        s.allocated + roundUp size pageSize + pageSize ≤ 2 ^ 64)
      fun f => f = .check .posixMemalign ∧ memalignOk s.allocated size = false := by
  unfold pageAlignedMalloc
  refine Ensures.bind (ensures_check fun hno => ⟨rfl, Bool.eq_false_iff.mpr hno⟩)
    fun _ hok => .ok ⟨rfl, ?_⟩
  simp only [memalignOk, Bool.and_eq_true, decide_eq_true_eq] at hok
  exact hok.2

/-- Storing a key takes at least its bytes. -/
theorem Sound.initStore [Zero α] (h : s.Sound job) (hk : key ∈ job.keys)
    (hs : (s.store key).tensor = none) (data : KVPairs α) :
    Ensures (s.initStore key data (job.len key) (job.dtype key)) (fun s' =>
      Serves job key s s' ∧ s'.view key phase round log = { s.view key phase round log with
        stored := some (CpuReducer.copy (fun _ => 0) data.vals (job.len key) (job.dtype key)) })
      (NoMemory job s) := by
  unfold State.initStore
  refine Ensures.bind ((ensures_pageAlignedMalloc s _).mono (fun _ h => h)
    fun f hf => ⟨hf.1, key, hk, hs, hf.2⟩) fun s₁ hs₁ => .ok ?_
  obtain ⟨rfl, hroom⟩ := hs₁
  set s' : State α κ := { s with
    allocated := s.allocated + roundUp (align (job.len key) (job.dtype key)) pageSize
    store := Function.update s.store key
      { tensor := some (CpuReducer.copy (fun _ => 0) data.vals (job.len key) (job.dtype key)),
        len := job.len key, dtype := job.dtype key } } with hs'
  have hself : s'.store key = _ := Function.update_self ..
  have hother : ∀ k, k ≠ key → s'.store k = s.store k := fun k hne => Function.update_of_ne hne _ _
  have hkept : ∀ k, k ≠ key → Kept cfg k s s' := fun k hne =>
    ⟨hother k hne, rfl, rfl, rfl, fun _ => rfl, fun _ => .refl _, fun _ _ => rfl⟩
  have hsize : job.len key ≤ roundUp (align (job.len key) (job.dtype key)) pageSize :=
    Nat.le_trans (Nat.le_add_right _ _) (le_roundUp _ (by decide))
  refine ⟨⟨⟨h.queues, h.loads, fun v hv => ?_, h.schedule, h.hash_lt, h.placed, fun k hk' => ?_,
    h.blank, fun k hh => ?_, fun i => ?_, hroom⟩, hkept⟩, ?_⟩
  · rw [← h.tables v hv]
    cases v <;> rfl
  · by_cases hne : k = key
    · subst hne
      rw [hself]
      exact ⟨rfl, rfl⟩
    · rw [hother k hne] at hk' ⊢
      exact h.stored k hk'
  · by_cases hne : k = key
    · subst hne
      rw [hself]
      rfl
    · rw [hother k hne]
      exact h.hashed k hh
  · have hsum := sum_unplaced hk hkept
    have hold : s.unplaced job key = 0 := if_neg (by simp [hs])
    have hnew : s'.unplaced job key ≤ job.len key := by
      unfold unplaced
      split <;> omega
    have hload := h.load i
    show s.accLoad.get i + _ ≤ s.allocated + _
    omega
  · simp only [view, hself]
    rfl

/-- An init push joins the others, and the last one stores the key. -/
theorem Sound.initPush [Zero α] (h : s.Sound job) (hk : key ∈ job.keys)
    (hs : (s.store key).tensor = none) (hm : (s.updateBuf key).merged.tensor = none) (w : ℕ) :
    Ensures (s.initPush cfg key (job.reqMeta w key .kDefaultPushPull true)
        (Job.pushData cfg key (job.init w key) (job.len key)) (job.len key))
      (fun r => Serves job key s r.1 ∧
        (r.1.view key phase round log, r.2) =
          (s.view key phase round log).initPushed job key w) (NoMemory job s) := by
  set req := job.reqMeta w key .kDefaultPushPull true
  set s₁ := s.noteMerged cfg key (job.len key) (job.dtype key) with hs₁
  have hl : Local key s s₁ := .noteMerged cfg s key _ _
  have hview : s₁.view key phase round log = s.view key phase round log := by
    rw [hs₁]
    unfold noteMerged
    split
    · rw [view_setMerged]
      simp [view, hm]
    · rfl
  have hstore : (s₁.store key).tensor = none := by
    have := hl.stored key
    rw [hs] at this
    simpa using this
  have hserves : Serves job key s s₁ := .of_local h hl
  have hlen : (s.view key phase round log).request.length = (s.updateBuf key).request.length := by
    simp [view]
  unfold State.initPush Slot.initPushed
  rw [hlen]
  split
  · refine .ok ⟨hserves.trans (.of_local hserves.sound (.collectInit ..)), ?_⟩
    rw [← hview]
    exact view_collectInit s₁ key phase round log cfg req
  · have hsame : s₁.store = s.store ∧ s₁.allocated = s.allocated := by
      rw [hs₁]
      unfold noteMerged
      split <;> exact ⟨rfl, rfl⟩
    have hno : NoMemory job s₁ = NoMemory job s := by
      unfold NoMemory
      rw [hsame.1, hsame.2]
    refine Ensures.bind (hno ▸ hserves.sound.initStore phase round log hk hstore _) fun s₂ hs₂ => ?_
    refine .ok ⟨(hserves.trans hs₂.1).trans (.of_local hs₂.1.sound (.collectInit ..)), ?_⟩
    have := view_collectInit s₂ key phase round log cfg req
    rw [hs₂.2, hview] at this
    exact this

end Init

section Pull

/-- The tables have room for every engine thread. -/
theorem Sound.index (h : s.Sound job) {t : ℕ} (ht : t < cfg.engineThreadNum) {vs : List VecName}
    (hvs : ∀ v ∈ vs, v ∈ perThreadTables) : s.index t vs = .ok () := by
  obtain ⟨_, hok, -⟩ := Ensures.exists_ok (s.ensures_index t vs (F := fun _ => False) fun v hv hle => by
    rw [h.tables v (hvs v hv)] at hle
    omega)
  exact hok

theorem mem_perThreadTables_of_present (w : Window) {v : VecName} (hv : v ∈ w.presentTables) :
    v ∈ perThreadTables := by
  unfold Window.presentTables at hv
  split at hv <;> simp [perThreadTables] at hv ⊢ <;> tauto

variable [Zero α] (phase : ℕ → Phase α) (round : ℕ → ℕ) (log : List (Event α))

/-- What `SendPullResponse` sends is the response of the slot. -/
theorem sendPullResponse_view (s : State α κ) {m : Ptr α × ℕ}
    (hm : (s.view key phase round log).merged = some m) (hown : OwnPtr key m.1) (req : KVMeta) :
    s.sendPullResponse key req =
      .ok ((s.view key phase round log).response key m req.sender) := by
  unfold sendPullResponse
  simp only [view, Option.map_eq_some_iff] at hm
  obtain ⟨p, hp, rfl⟩ := hm
  rw [hp]
  simp only [Slot.response]
  rw [← read_view s key phase round log hown]

/-- A pull is answered, or waits, as its window says. -/
theorem Sound.pull (h : s.Sound job) (hsync : cfg.syncMode = true)
    (hblock : cfg.isEngineBlocking = false) (hs : (s.store key).tensor.isSome = true) {t : ℕ}
    (hh : s.hashCache key = some t) (req : KVMeta) {r : Slot α κ × List (Event α)}
    (hr : (¬(s.view key phase round log).Answers req.sender ∧
        r = (s.view key phase round log).pullLater req) ∨
      ((s.view key phase round log).Answers req.sender ∧ ∃ m,
        (s.view key phase round log).merged = some m ∧ OwnPtr key m.1 ∧
        r = (s.view key phase round log).pullNow cfg.numWorkers key m req.sender)) :
    ∃ s', s.pull cfg key req = .ok (s', r.2) ∧ Serves job key s s' ∧
      s'.view key phase round log = r.1 := by
  have hlt := h.hash_lt key t hh
  have hid : s.getThreadID cfg key 0 = .ok (t, s) := by simp [State.getThreadID, hh]
  have hwindow : (s.view key phase round log).window = s.window t key := by simp [view, hh]
  have hindex : s.index t ((s.window t key).presentTables ++ [.seenSender]) = .ok () := by
    refine h.index hlt fun v hv => ?_
    rcases List.mem_append.mp hv with hv | hv
    · exact mem_perThreadTables_of_present _ hv
    · rw [List.mem_singleton.mp hv]
      decide
  unfold State.pull
  rw [check_ok hs]
  simp only [hblock, hsync, Bool.false_eq_true, Bool.true_eq_false, or_self, if_false, hid,
    bind, Except.bind, hindex]
  rcases hr with ⟨hans, rfl⟩ | ⟨hans, m, hm, hown, rfl⟩
  · unfold Slot.Answers at hans
    rw [hwindow] at hans
    rw [if_neg hans, h.index hlt (by decide)]
    refine ⟨_, rfl, .of_local h (.setWindow hh _), ?_⟩
    rw [view_setWindow _ _ _ _ _ hh]
    simp only [Slot.pullLater, hwindow]
  · unfold Slot.Answers at hans
    rw [hwindow] at hans
    rw [if_pos hans, sendPullResponse_view phase round log s hm hown, h.index hlt (by decide)]
    refine ⟨_, rfl, .of_local h (.setWindow hh _), ?_⟩
    rw [view_setWindow _ _ _ _ _ hh]
    simp only [Slot.pullNow, hwindow]

end Pull

/-! ### Which branch a request takes -/

section Branch

theorem logChecks_pushData (req : KVMeta) (vals : Mem α) (len : ℕ) :
    logChecks cfg req (Job.pushData cfg key vals len) = .ok () := by
  unfold logChecks
  split
  · exact check_ok rfl
  · rfl

variable [Zero α] [Add α] (s : State α κ) (w : ℕ)

theorem handle_register (hk : key ∈ job.keys) (vals : Mem α) (len : ℕ) :
    s.handle cfg codec (job.reqMeta w key .kCompressedPushPull true)
        (Job.pushData cfg key vals len) =
      s.registerCompressor cfg codec key (job.reqMeta w key .kCompressedPushPull true)
        (Job.pushData cfg key vals len) := by
  unfold handle
  rw [logChecks_pushData]
  simp only [Job.pushData, cfg.decodeKey_encodeKey (job.keys_lt key hk), bind, Except.bind,
    Job.reqMeta, if_true]

/-- A push is an init push as long as the key is not stored. -/
theorem handle_push (hk : key ∈ job.keys) (vals : Mem α) (len : ℕ) :
    s.handle cfg codec (job.reqMeta w key .kDefaultPushPull true)
        (Job.pushData cfg key vals len) =
      match (s.store key).tensor with
      | none => s.initPush cfg key (job.reqMeta w key .kDefaultPushPull true)
          (Job.pushData cfg key vals len) len
      | some _ => s.push cfg key (job.reqMeta w key .kDefaultPushPull true)
          (Job.pushData cfg key vals len) len := by
  unfold handle
  rw [logChecks_pushData]
  simp only [Job.pushData, cfg.decodeKey_encodeKey (job.keys_lt key hk), bind, Except.bind,
    Job.reqMeta, check_ok]
  rfl

theorem handle_pull (hk : key ∈ job.keys) :
    s.handle cfg codec (job.reqMeta w key .kDefaultPushPull false) (Job.pullData cfg key) =
      s.pull cfg key (job.reqMeta w key .kDefaultPushPull false) := by
  unfold handle
  simp only [Job.pullData, cfg.decodeKey_encodeKey (job.keys_lt key hk), bind, Except.bind,
    Job.reqMeta, logChecks]
  simp

end Branch

end State

end DeepInc.Server
