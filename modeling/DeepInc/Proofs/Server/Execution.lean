/-
What an engine thread does to the slot of a key.

A thread takes the first message of its queue into its hand and executes it.  Seen from the key
of the message, the first piece of pending work is taken off its slot, and what `Slot.executed`
says is done: data is copied into the stored buffer or added to it, and an `ALL_RECV` publishes
the result and answers the pulls that wait.

A step of the server may fail, and that one does not is part of what has to be shown.  The
pointers of a message are not null, because it was made from a push for the key.  The key is
placed at this thread, and the tables have room for every thread, so that no index is out of
range.

Together these are the hypothesis `Sound`, which every step keeps.  It is stated in `View.lean`.
-/
import DeepInc.Proofs.Server.Requests

namespace DeepInc.Server

open Outcome PriorityQueue

variable {α κ : Type} {cfg : Config} {codec : Codec α κ}

namespace State

variable {job : Job α κ cfg codec} {key : Key} {s s' : State α κ}

/-! ### Taking a message -/

/-- A pop changes the order of what waits, and only with scheduling on. -/
theorem Sound.pop (h : s.Sound job) (i : ℕ) :
    (s.pop i).Sound job ∧ ∀ k, Kept cfg k s (s.pop i) := by
  have hsame : (s.pop i).store = s.store ∧ (s.pop i).updateBuf = s.updateBuf ∧
      (s.pop i).compressorMap = s.compressorMap ∧ (s.pop i).hashCache = s.hashCache ∧
      (∀ t k, (s.pop i).window t k = s.window t k) ∧ (s.pop i).accLoad = s.accLoad ∧
      (s.pop i).allocated = s.allocated ∧ (∀ v, (s.pop i).tableSize v = s.tableSize v) ∧
      ∀ j, ((s.pop i).engineQueues.get j).enableSchedule =
        (s.engineQueues.get j).enableSchedule := by
    rcases s.pop_cases i with heq | ⟨m, q, -, hp, heq⟩
    · rw [heq]
      exact ⟨rfl, rfl, rfl, rfl, fun _ _ => rfl, rfl, rfl, fun _ => rfl, fun _ => rfl⟩
    · rw [heq]
      refine ⟨rfl, rfl, rfl, rfl, fun _ _ => rfl, rfl, rfl, by rintro ⟨⟩ <;> rfl, fun j => ?_⟩
      by_cases hj : j = i
      · subst hj
        simpa using (waitAndPop_spec hp).2.2.1
      · simp [hj]
  obtain ⟨hstore, hupdate, hcomp, hhash, hwindow, hload, halloc, htables, hschedule⟩ := hsame
  have hunplaced : ∀ k, (s.pop i).unplaced job k = s.unplaced job k := by
    intro k
    simp only [unplaced, hstore, hhash]
  refine ⟨⟨(htables .engineQueues).trans h.queues, by rw [hload]; exact h.loads,
    fun v hv => (htables v).trans (h.tables v hv), fun j => (hschedule j).trans (h.schedule j),
    fun k t => by rw [hhash]; exact h.hash_lt k t, fun j m hm => ?_,
    fun k => by rw [hstore]; exact h.stored k, fun k hk t => ?_,
    fun k => by rw [hstore, hhash]; exact h.hashed k, fun j => ?_, by rw [halloc]; exact h.room⟩,
    fun k => ⟨by rw [hstore], by rw [hupdate], by rw [hcomp], by rw [hhash], fun t => hwindow t k,
      fun j => (s.waiting_pop i j).filter _, fun hf j => ?_⟩⟩
  · rw [hhash]
    exact h.placed j m ((s.waiting_pop i j).subset hm)
  · rw [hhash] at hk
    rw [hwindow]
    exact h.blank k hk t
  · simp only [hload, halloc, hunplaced]
    exact h.load j
  · rw [waiting_pop_fifo ((h.schedule i).trans hf)]

/-- The state in which the message in the hand of thread `i` is dropped. -/
def dropHand (s : State α κ) (i : ℕ) : State α κ :=
  { s with hand := Function.update s.hand i none }

theorem Sound.dropHand (h : s.Sound job) {i : ℕ} {m : EngineMessage α} (hm : s.hand i = some m) :
    Serves job m.key s (s.dropHand i) := by
  have hself : s.waiting i = m :: (s.dropHand i).waiting i := waiting_execute hm
  have hother : ∀ j, j ≠ i → (s.dropHand i).waiting j = s.waiting j := by
    intro j hj
    simp [waiting, State.dropHand, hj]
  refine ⟨⟨h.queues, h.loads, fun v hv => ?_, h.schedule, h.hash_lt, fun j m' hm' => ?_, h.stored,
    h.blank, h.hashed, h.load, h.room⟩, fun k hne => ?_⟩
  · rw [← h.tables v hv]
    cases v <;> rfl
  · by_cases hj : j = i
    · subst hj
      exact h.placed j m' (hself ▸ List.mem_cons_of_mem m hm')
    · rw [hother j hj] at hm'
      exact h.placed j m' hm'
  · have hkey : ∀ j, ofKey k ((s.dropHand i).waiting j) = ofKey k (s.waiting j) := by
      intro j
      by_cases hj : j = i
      · subst hj
        rw [hself, ofKey_cons_ne (Ne.symm hne)]
      · rw [hother j hj]
    exact ⟨rfl, rfl, rfl, rfl, fun _ => rfl, fun j => by rw [hkey], fun _ j => hkey j⟩

/-- The message in hand is the first piece of pending work of its key. -/
theorem Sound.view_dropHand (h : s.Sound job) {i : ℕ} {m : EngineMessage α}
    (hm : s.hand i = some m) (phase : ℕ → Phase α) (round : ℕ → ℕ) (log : List (Event α)) :
    ∃ rest, (s.view m.key phase round log).pending = m.work :: rest ∧
      (s.dropHand i).view m.key phase round log =
        { s.view m.key phase round log with pending := rest } := by
  have hself : s.waiting i = m :: (s.dropHand i).waiting i := waiting_execute hm
  obtain ⟨-, hh, -⟩ := h.placed i m (by rw [hself]; simp)
  have hh' : (s.dropHand i).hashCache m.key = some i := hh
  refine ⟨(ofKey m.key ((s.dropHand i).waiting i)).map (·.work), ?_, ?_⟩
  · simp only [view, hh, Option.elim_some, hself, ofKey_cons_self, List.map_cons]
  · simp only [view, hh, hh', Option.elim_some]
    rfl

/-! ### Doing the work

A message with data writes to the buffer of its key; what it writes depends on whether the key
has a compressor.  An `ALL_RECV` does three things, in this order: it compresses the result,
opens the window and answers.
-/

theorem present_qPullReqmeta (w : Window) : w.present.qPullReqmeta = w.qPullReqmeta := by
  unfold Window.present
  split <;> rfl

/-- The loop over the waiting pulls, when every one can be answered. -/
theorem drain_eq {numWorkers : ℕ} {send : KVMeta → Except Fault (Response α)}
    {f : KVMeta → Response α} (hsend : ∀ req, send req = .ok (f req)) (q : List KVMeta)
    (w : Window) :
    drain numWorkers send w q =
      .ok ((Slot.drained numWorkers w q).1, (Slot.drained numWorkers w q).2.map f) := by
  induction q generalizing w with
  | nil => rfl
  | cons req rest ih =>
      unfold drain Slot.drained
      by_cases hseen : req.sender ∉ w.seenSender
      · simp only [if_pos hseen, hsend, bind, Except.bind]
        split
        · rfl
        · rw [ih]
          rfl
      · simp only [if_neg hseen]
        split
        · rfl
        · exact ih _

variable [Zero α] (phase : ℕ → Phase α) (round : ℕ → ℕ) (log : List (Event α))

/-- The data of a push, decompressed where the key has a compressor. -/
theorem Sound.convert_data (h : s.Sound job) {m : EngineMessage α} (hmade : m.MadeFor job)
    (hops : m.ops ≠ .allRecv) {len : ℕ} (hlens : m.sarray.lens = [len]) (hle : len ≤ job.len m.key) :
    ∃ s' p, s.convert codec m (.vals m.sarray.vals) = .ok (s', p, []) ∧
      Serves job m.key s s' ∧ s'.store = s.store ∧
      s'.read p = ((s.view m.key phase round log).received job m.key m.sarray.vals len).2 ∧
      s'.view m.key phase round log = { s.view m.key phase round log with
        compressor := ((s.view m.key phase round log).received job m.key m.sarray.vals len).1 } := by
  have hv : (s.view m.key phase round log).compressor = s.compressorMap m.key := rfl
  unfold convert Slot.received
  cases hmap : s.compressorMap m.key with
  | none =>
      simp only [if_neg hops, hv, hmap]
      refine ⟨s, _, rfl, .refl h, rfl, rfl, ?_⟩
      simp [view, hmap]
  | some c =>
      simp only [if_neg hops, hlens, hv, hmap, check_ok (hmade.len ▸ hle : len ≤ m.len)]
      refine ⟨_, _, rfl, .of_local h (.setCompressor ..), rfl, ?_, ?_⟩
      · simp [read, setCompressor, hmade.dtype]
      · rw [view_setCompressor, hmade.dtype]
        rfl

/-- The result of a round, compressed where the key has a compressor, is published. -/
theorem Sound.convert_result (h : s.Sound job) {m : EngineMessage α} (hmade : m.MadeFor job)
    (hops : m.ops = .allRecv) (hs : (s.store m.key).tensor.isSome = true) :
    let r := (s.view m.key phase round log).publish job m.key
    ∃ s', s.convert codec m (.stored m.key) =
        .ok (s', .stored m.key, [.published m.key (r.1.read r.2.1) r.2.2]) ∧
      Serves job m.key s s' ∧ s'.hashCache = s.hashCache ∧
      s'.view m.key phase round log = r.1 := by
  intro r
  have hv : (s.view m.key phase round log).compressor = s.compressorMap m.key := rfl
  cases hmap : s.compressorMap m.key with
  | none =>
      have hr : r = ({ s.view m.key phase round log with
          merged := some (.stored m.key, job.len m.key) }, .stored m.key, job.len m.key) := by
        simp only [r, Slot.publish, hv, hmap]
      unfold convert
      simp only [hmap, if_pos hops, hr, hmade.len]
      refine ⟨_, rfl, .of_local h (.setMerged ..), rfl, ?_⟩
      rw [view_setMerged]
      rfl
  | some c =>
      set r' := codec.compress c ((s.view m.key phase round log).stored.getD fun _ => 0)
        (job.len m.key) (job.dtype m.key) with hr'
      have hr : r = ({ s.view m.key phase round log with
          compressor := some r'.1, stored := some r'.2.1, merged := some (.buf m.key, r'.2.2) },
          .buf m.key, r'.2.2) := by
        simp only [r, Slot.publish, hv, hmap, hr']
      have hc : codec.compress c (s.read (.stored m.key)) m.len m.type.dtype = r' := by
        rw [hmade.len, hmade.dtype]
        rfl
      unfold convert
      simp only [hmap, if_pos hops, hr, hc]
      have hl : Local m.key s ((s.setCompressor m.key r'.1).write (.stored m.key) r'.2.1) :=
        (Local.setCompressor s m.key r'.1).trans (.writeStored (by exact hs) _)
      refine ⟨((s.setCompressor m.key r'.1).write (.stored m.key) r'.2.1).setMerged m.key
        { (s.updateBuf m.key).merged with tensor := some (.buf m.key), len := r'.2.2 }, ?_,
        .of_local h (hl.trans (.setMerged ..)), rfl, ?_⟩
      · simp [read, setMerged, write, setCompressor, Slot.read]
      · rw [view_setMerged, view_writeStored, view_setCompressor]
        rfl

/-- The window of a round opens, and the pulls that wait are answered. -/
theorem Sound.openWindow (h : s.Sound job) {i : ℕ} (hh : s.hashCache key = some i)
    {m : Ptr α × ℕ} (hm : (s.view key phase round log).merged = some m) (hown : OwnPtr key m.1) :
    let v := s.view key phase round log
    let d := Slot.drained cfg.numWorkers
      { v.window.present with isPushFinished := some true, qPullReqmeta := [] }
      v.window.present.qPullReqmeta
    ∃ s', s.openWindow cfg i key =
        .ok (s', d.2.map fun req => .pullResponse (v.response key m req.sender)) ∧
      Serves job key s s' ∧ s'.view key phase round log = { v with window := d.1 } := by
  intro v d
  have hlt := h.hash_lt key i hh
  have hwindow : v.window = s.window i key := by simp [v, view, hh]
  have hsend : ∀ req, s.sendPullResponse key req = .ok (v.response key m req.sender) :=
    fun req => sendPullResponse_view phase round log s hm hown req
  have hindex : s.index i ((s.window i key).presentTables ++ [.qPullReqmeta] ++
      if (s.window i key).qPullReqmeta = [] then [] else [.seenSender, .pullCnt]) = .ok () := by
    refine h.index hlt fun u hu => ?_
    rcases List.mem_append.mp hu with hu | hu
    · rcases List.mem_append.mp hu with hu | hu
      · exact mem_perThreadTables_of_present _ hu
      · rw [List.mem_singleton.mp hu]
        decide
    · split at hu <;> simp at hu
      rcases hu with rfl | rfl <;> decide
  unfold State.openWindow
  simp only [hindex, bind, Except.bind, drain_eq hsend]
  refine ⟨s.setWindow i key d.1, ?_, .of_local h (.setWindow hh _), ?_⟩
  · simp only [d, hwindow, present_qPullReqmeta, List.map_map]
    rfl
  · rw [view_setWindow _ _ _ _ _ hh]

/-- The data of a push is written to the stored buffer. -/
theorem Sound.execute_data [Add α] (h : s.Sound job) {i : ℕ} {m : EngineMessage α}
    (hm : s.hand i = some m) {op : Mem α → Mem α → ℕ → DataType → Mem α}
    (hop : (m.ops = .copyFirst ∧ op = CpuReducer.copy) ∨ (m.ops = .sumRecv ∧ op = CpuReducer.sum)) :
    let v := s.view m.key phase round log
    ∃ s' rest, v.pending = m.work :: rest ∧ s.execute cfg codec i = .ok (s', []) ∧
      Serves job m.key s s' ∧ s'.view m.key phase round log =
        ({ v with pending := rest }).store job m.key op m.sarray.vals (m.sarray.lens.headD 0) := by
  intro v
  obtain ⟨hk, hh, hmade⟩ := h.placed i m (by simp [waiting, hm])
  have hs : (s.store m.key).tensor.isSome = true := h.hashed m.key (by rw [hh]; rfl)
  have hops : m.ops ≠ .allRecv ∧ m.ops ≠ .terminate := by
    rcases hop with ⟨hc, -⟩ | ⟨hc, -⟩ <;> rw [hc] <;> simp
  obtain ⟨-, hsrc, len, hlens, hle⟩ := hmade.source.resolve_left fun hc => hops.1 hc.1
  have hdrop := h.dropHand hm
  obtain ⟨rest, hpending, hview⟩ := h.view_dropHand hm phase round log
  obtain ⟨s₁, p, hconv, hserves, hstore, hread, hview₁⟩ :=
    hdrop.sound.convert_data phase round log hmade hops.1 hlens hle
  rw [hview] at hread hview₁
  set v' : Slot α κ := { v with pending := rest } with hv'
  set r := v'.received job m.key m.sarray.vals len with hr
  have hstored : s₁.read (.stored m.key) = v'.stored.getD fun _ => 0 := by
    show (s₁.store m.key).tensor.getD _ = _
    rw [hstore]
    rfl
  have hs₁ : (s₁.store m.key).tensor.isSome = true := by
    rw [hstore]
    exact hs
  refine ⟨s₁.write (.stored m.key) (op (v'.stored.getD fun _ => 0) r.2 (job.len m.key)
    (job.dtype m.key)), rest, hpending, ?_,
    (hdrop.trans hserves).trans (.of_local hserves.sound (.writeStored hs₁ _)), ?_⟩
  · have hdst := hmade.dst
    unfold execute
    simp only [hm, if_neg hops.2, hdst, hsrc]
    show (State.convert codec (s.dropHand i) m (.vals m.sarray.vals)) >>= _ = _
    rw [hconv]
    rcases hop with ⟨hc, rfl⟩ | ⟨hc, rfl⟩
    · simp only [bind, Except.bind, hc, hstored, hread, hmade.len, hmade.dtype]
    · simp only [bind, Except.bind, hc, hstored, hread, hmade.len, hmade.dtype]
  · rw [view_writeStored, hview₁, hlens]
    rfl

/-- An `ALL_RECV` publishes the result of its round and opens the window. -/
theorem Sound.execute_result [Add α] (h : s.Sound job) {i : ℕ} {m : EngineMessage α}
    (hm : s.hand i = some m) (hops : m.ops = .allRecv) :
    let v := s.view m.key phase round log
    ∃ s' rest, v.pending = m.work :: rest ∧
      s.execute cfg codec i = .ok (s', (({ v with pending := rest }).finished job m.key).2) ∧
      Serves job m.key s s' ∧
      s'.view m.key phase round log = (({ v with pending := rest }).finished job m.key).1 := by
  intro v
  obtain ⟨hk, hh, hmade⟩ := h.placed i m (by simp [waiting, hm])
  have hs : (s.store m.key).tensor.isSome = true := h.hashed m.key (by rw [hh]; rfl)
  have hsrc : m.src = some (.stored m.key) := by
    rcases hmade.source with hc | ⟨hc, -⟩
    · exact hc.2
    · rw [hops] at hc
      simp at hc
  have hdrop := h.dropHand hm
  obtain ⟨rest, hpending, hview⟩ := h.view_dropHand hm phase round log
  obtain ⟨s₁, hconv, hserves, hhash, hview₁⟩ :=
    hdrop.sound.convert_result phase round log hmade hops (by exact hs)
  rw [hview] at hconv hview₁
  set v' : Slot α κ := { v with pending := rest } with hv'
  obtain ⟨stored, compressor, p, hpub, -, -, hown⟩ := Slot.publish_spec job m.key v'
  have hmerged : (s₁.view m.key phase round log).merged = some p := by
    rw [hview₁, hpub]
  obtain ⟨s₂, hopen, hserves₂, hview₂⟩ := hserves.sound.openWindow phase round log
    (show s₁.hashCache m.key = some i by rw [hhash]; exact hh) hmerged hown
  rw [hview₁, hpub] at hopen hview₂
  rw [hpub] at hconv
  refine ⟨s₂, rest, hpending, ?_, (hdrop.trans hserves).trans hserves₂, ?_⟩
  · have hdst := hmade.dst
    unfold execute
    simp only [hm, hops, reduceCtorEq, if_false, hdst, hsrc]
    show (State.convert codec (s.dropHand i) m (.stored m.key)) >>= _ = _
    rw [hconv]
    simp only [bind, Except.bind, hopen]
    show _ = Except.ok (s₂, (v'.finished job m.key).2)
    simp only [Slot.finished, hpub]
    rfl
  · show _ = (v'.finished job m.key).1
    rw [hview₂]
    simp only [Slot.finished, hpub]

/-- The message in hand is executed as the pending work of its key says. -/
theorem Sound.execute [Add α] (h : s.Sound job) {i : ℕ} {m : EngineMessage α}
    (hm : s.hand i = some m) :
    let v := s.view m.key phase round log
    ∃ s' rest, v.pending = m.work :: rest ∧
      s.execute cfg codec i = .ok (s', (({ v with pending := rest }).executed job m.key m.work).2) ∧
      Serves job m.key s s' ∧
      s'.view m.key phase round log =
        (({ v with pending := rest }).executed job m.key m.work).1 := by
  intro v
  obtain ⟨-, -, hmade⟩ := h.placed i m (by simp [waiting, hm])
  rcases hmade.source with ⟨hops, -⟩ | ⟨hops | hops, -, -⟩
  · have hwork : m.work = .done := by simp [EngineMessage.work, hops]
    obtain ⟨s', rest, hpending, hexec, hserves, hview⟩ := h.execute_result phase round log hm hops
    rw [hwork] at hpending ⊢
    exact ⟨s', rest, hpending, hexec, hserves, hview⟩
  · have hwork : m.work = .first m.sarray.vals (m.sarray.lens.headD 0) := by
      simp [EngineMessage.work, hops]
    obtain ⟨s', rest, hpending, hexec, hserves, hview⟩ :=
      h.execute_data phase round log hm (.inl ⟨hops, rfl⟩)
    rw [hwork] at hpending ⊢
    exact ⟨s', rest, hpending, hexec, hserves, hview⟩
  · have hwork : m.work = .more m.sarray.vals (m.sarray.lens.headD 0) := by
      simp [EngineMessage.work, hops]
    obtain ⟨s', rest, hpending, hexec, hserves, hview⟩ :=
      h.execute_data phase round log hm (.inr ⟨hops, rfl⟩)
    rw [hwork] at hpending ⊢
    exact ⟨s', rest, hpending, hexec, hserves, hview⟩

end State

end DeepInc.Server
