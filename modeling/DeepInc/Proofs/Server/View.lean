/-
What a step of the server does to a key.

The server is looked at one key at a time.  `State.view` is what it holds of a key, taken
together from its tables: the stored buffer, the window at the thread of the key, the messages
of the key that wait.  A step of the server writes to tables of all keys, and here is what that
means for one of them.

`Kept` says that a key holds what it held, up to the order of its waiting messages; `Local` that
a write touches nothing but the buffers of one key, and so keeps all others.

`Sound` is what holds of the server as a whole: the vectors have room for every engine thread, a
message waits at the thread of its key and was made from a push of it, and the load table stays
below the memory that was allocated, so that it never overflows.  With these, each branch of the
handler and of the engine is the operation of the same name on the slot of its key.

The last section has an equation for every write: the view after it is the view with that one
thing changed.
-/
import DeepInc.Proofs.Server.Rounds
import DeepInc.Proofs.Server.Tables
import Mathlib.Algebra.BigOperators.Group.Finset.Basic
import Mathlib.Algebra.Order.BigOperators.Group.Finset

namespace DeepInc.Server

open Outcome PriorityQueue

variable {α κ : Type} {cfg : Config} {codec : Codec α κ}

/-! ### Keys a step is not about

With scheduling on, a push for one key may move the messages of another within a queue.  So a
key that is kept has the same messages waiting, in an order that may be different; with
scheduling off it is the same order.
-/

/-- The key holds in `s'` what it holds in `s`. -/
structure Kept (cfg : Config) (key : Key) (s s' : State α κ) : Prop where
  store : s'.store key = s.store key
  updateBuf : s'.updateBuf key = s.updateBuf key
  compressor : s'.compressorMap key = s.compressorMap key
  hashCache : s'.hashCache key = s.hashCache key
  window : ∀ t, s'.window t key = s.window t key
  waiting : ∀ t, (ofKey key (s'.waiting t)).Perm (ofKey key (s.waiting t))
  fifo : cfg.enableSchedule = false → ∀ t, ofKey key (s'.waiting t) = ofKey key (s.waiting t)

namespace Kept

variable {key : Key} {s s' s'' : State α κ}

theorem refl (s : State α κ) : Kept cfg key s s :=
  ⟨rfl, rfl, rfl, rfl, fun _ => rfl, fun _ => .refl _, fun _ _ => rfl⟩

theorem trans (h : Kept cfg key s s') (h' : Kept cfg key s' s'') : Kept cfg key s s'' :=
  ⟨h'.store.trans h.store, h'.updateBuf.trans h.updateBuf, h'.compressor.trans h.compressor,
    h'.hashCache.trans h.hashCache, fun t => (h'.window t).trans (h.window t),
    fun t => (h'.waiting t).trans (h.waiting t), fun hf t => (h'.fifo hf t).trans (h.fifo hf t)⟩

/-- Seen from a key that was kept, its pending work may have changed its order. -/
theorem view (h : Kept cfg key s s') (phase : ℕ → Phase α) (round : ℕ → ℕ)
    (log : List (Event α)) :
    ∃ pending, pending.Perm (s.view key phase round log).pending ∧
      (cfg.enableSchedule = false → pending = (s.view key phase round log).pending) ∧
      s'.view key phase round log = { s.view key phase round log with pending := pending } := by
  refine ⟨(s'.view key phase round log).pending, ?_, fun hf => ?_, ?_⟩
  · simp only [State.view, h.hashCache]
    cases s.hashCache key with
    | none => exact .refl _
    | some t => exact (h.waiting t).map _
  · simp only [State.view, h.hashCache]
    cases s.hashCache key with
    | none => rfl
    | some t => simp only [Option.elim_some, h.fifo hf t]
  · simp only [State.view, h.store, h.updateBuf, h.compressor, h.hashCache, h.window]

end Kept

/-! ### Writes to the buffers of a key -/

/-- Nothing but the buffers and the window of `key` differs. -/
structure Local (key : Key) (s s' : State α κ) : Prop where
  engineQueues : s'.engineQueues = s.engineQueues
  hand : s'.hand = s.hand
  accLoad : s'.accLoad = s.accLoad
  hashCache : s'.hashCache = s.hashCache
  allocated : s'.allocated = s.allocated
  tables : ∀ v, s'.tableSize v = s.tableSize v
  len : ∀ k, (s'.store k).len = (s.store k).len
  dtype : ∀ k, (s'.store k).dtype = (s.store k).dtype
  stored : ∀ k, (s'.store k).tensor.isSome = (s.store k).tensor.isSome
  store : ∀ k, k ≠ key → s'.store k = s.store k
  updateBuf : ∀ k, k ≠ key → s'.updateBuf k = s.updateBuf k
  compressor : ∀ k, k ≠ key → s'.compressorMap k = s.compressorMap k
  window : ∀ k, k ≠ key → ∀ t, s'.window t k = s.window t k
  blank : s.hashCache key = none → ∀ t, s'.window t key = s.window t key

namespace Local

variable {key : Key} {s s' s'' : State α κ}

theorem refl (s : State α κ) : Local key s s :=
  ⟨rfl, rfl, rfl, rfl, rfl, fun _ => rfl, fun _ => rfl, fun _ => rfl, fun _ => rfl, fun _ _ => rfl,
    fun _ _ => rfl, fun _ _ => rfl, fun _ _ _ => rfl, fun _ _ => rfl⟩

theorem trans (h : Local key s s') (h' : Local key s' s'') : Local key s s'' where
  engineQueues := h'.engineQueues.trans h.engineQueues
  hand := h'.hand.trans h.hand
  accLoad := h'.accLoad.trans h.accLoad
  hashCache := h'.hashCache.trans h.hashCache
  allocated := h'.allocated.trans h.allocated
  tables v := (h'.tables v).trans (h.tables v)
  len k := (h'.len k).trans (h.len k)
  dtype k := (h'.dtype k).trans (h.dtype k)
  stored k := (h'.stored k).trans (h.stored k)
  store k hk := (h'.store k hk).trans (h.store k hk)
  updateBuf k hk := (h'.updateBuf k hk).trans (h.updateBuf k hk)
  compressor k hk := (h'.compressor k hk).trans (h.compressor k hk)
  window k hk t := (h'.window k hk t).trans (h.window k hk t)
  blank hh t := (h'.blank (by rw [h.hashCache, hh]) t).trans (h.blank hh t)

theorem kept (h : Local key s s') {k : Key} (hk : k ≠ key) : Kept cfg k s s' := by
  have hw : ∀ t, s'.waiting t = s.waiting t := by
    intro t
    simp only [State.waiting, h.engineQueues, h.hand]
  exact ⟨h.store k hk, h.updateBuf k hk, h.compressor k hk, by rw [h.hashCache],
    h.window k hk, fun t => by rw [hw], fun _ t => by rw [hw]⟩

theorem setRequest (s : State α κ) (key : Key) (request : List KVMeta) :
    Local key s (s.setRequest key request) := by
  refine ⟨rfl, rfl, rfl, rfl, rfl, by rintro ⟨⟩ <;> rfl, fun _ => rfl, fun _ => rfl, fun _ => rfl,
    fun _ _ => rfl, fun k hk => ?_, fun _ _ => rfl, fun _ _ _ => rfl, fun _ _ => rfl⟩
  exact Function.update_of_ne hk _ _

theorem setMerged (s : State α κ) (key : Key) (merged : MergedArray α) :
    Local key s (s.setMerged key merged) := by
  refine ⟨rfl, rfl, rfl, rfl, rfl, by rintro ⟨⟩ <;> rfl, fun _ => rfl, fun _ => rfl, fun _ => rfl,
    fun _ _ => rfl, fun k hk => ?_, fun _ _ => rfl, fun _ _ _ => rfl, fun _ _ => rfl⟩
  exact Function.update_of_ne hk _ _

theorem setCompressor (s : State α κ) (key : Key) (c : Compressor α κ) :
    Local key s (s.setCompressor key c) := by
  refine ⟨rfl, rfl, rfl, rfl, rfl, by rintro ⟨⟩ <;> rfl, fun _ => rfl, fun _ => rfl, fun _ => rfl,
    fun _ _ => rfl, fun _ _ => rfl, fun k hk => ?_, fun _ _ _ => rfl, fun _ _ => rfl⟩
  exact Function.update_of_ne hk _ _

theorem writeStored {s : State α κ} {key : Key} (hs : (s.store key).tensor.isSome = true)
    (m : Mem α) : Local key s (s.write (.stored key) m) := by
  have hstore : ∀ k, (s.write (.stored key) m).store k =
      if k = key then { s.store key with tensor := some m } else s.store k := by
    intro k
    by_cases hk : k = key
    · subst hk; simp [State.write]
    · simp [State.write, hk]
  refine ⟨rfl, rfl, rfl, rfl, rfl, by rintro ⟨⟩ <;> rfl, fun k => ?_, fun k => ?_, fun k => ?_,
    fun k hk => ?_, fun _ _ => rfl, fun _ _ => rfl, fun _ _ _ => rfl, fun _ _ => rfl⟩
  · rw [hstore]; split <;> simp_all
  · rw [hstore]; split <;> simp_all
  · rw [hstore]; split <;> simp_all
  · rw [hstore, if_neg hk]

theorem setWindow {s : State α κ} {t : ℕ} {key : Key} (hh : s.hashCache key = some t)
    (w : Window) : Local key s (s.setWindow t key w) := by
  refine ⟨rfl, rfl, rfl, rfl, rfl, by rintro ⟨⟩ <;> rfl, fun _ => rfl, fun _ => rfl, fun _ => rfl,
    fun _ _ => rfl, fun _ _ => rfl, fun _ _ => rfl, fun k hk t' => ?_, fun hnone => ?_⟩
  · by_cases ht : t' = t
    · subst ht; simp [State.window, State.setWindow, hk]
    · simp [State.window, State.setWindow, ht]
  · rw [hh] at hnone
    cases hnone

theorem collectInit (cfg : Config) (s : State α κ) (key : Key) (req : KVMeta) :
    Local key s (s.collectInit cfg key req).1 := by
  unfold State.collectInit
  simp only
  split
  · exact setRequest ..
  · exact setRequest ..

theorem noteMerged (cfg : Config) (s : State α κ) (key : Key) (len : ℕ) (dtype : DataType) :
    Local key s (s.noteMerged cfg key len dtype) := by
  unfold State.noteMerged
  split
  · exact setMerged ..
  · exact refl s

end Local

/-! ### The server as a whole

`Serves` is the form in which a step about a key is stated: the server is sound after it, and
all other keys are kept.  It is closed under composition.
-/

/-- A message the handler made of a request of a worker. -/
structure EngineMessage.MadeFor (job : Job α κ cfg codec) (m : EngineMessage α) : Prop where
  dst : m.dst = some (.stored m.key)
  len : m.len = job.len m.key
  dtype : m.type.dtype = job.dtype m.key
  source : (m.ops = .allRecv ∧ m.src = some (.stored m.key)) ∨
    ((m.ops = .copyFirst ∨ m.ops = .sumRecv) ∧ m.src = some (.vals m.sarray.vals) ∧
      ∃ len, m.sarray.lens = [len] ∧ len ≤ job.len m.key)

/-- The bytes of a key that is stored and has no engine thread yet. -/
def State.unplaced (job : Job α κ cfg codec) (s : State α κ) (key : Key) : ℕ :=
  if (s.store key).tensor.isSome = true ∧ s.hashCache key = none then job.len key else 0

/-- What holds of the server as a whole. -/
structure State.Sound (job : Job α κ cfg codec) (s : State α κ) : Prop where
  queues : s.engineQueues.size = cfg.engineThreadNum
  loads : s.accLoad.size = cfg.engineThreadNum
  tables : ∀ v ∈ perThreadTables, s.tableSize v = cfg.engineThreadNum
  schedule : ∀ i, (s.engineQueues.get i).enableSchedule = cfg.enableSchedule
  hash_lt : ∀ key t, s.hashCache key = some t → t < cfg.engineThreadNum
  placed : ∀ i, ∀ m ∈ s.waiting i, m.key ∈ job.keys ∧ s.hashCache m.key = some i ∧ m.MadeFor job
  stored : ∀ key, (s.store key).tensor.isSome = true →
    (s.store key).len = job.len key ∧ (s.store key).dtype = job.dtype key
  blank : ∀ key, s.hashCache key = none → ∀ t, s.window t key = .absent
  hashed : ∀ key, (s.hashCache key).isSome = true → (s.store key).tensor.isSome = true
  load : ∀ i, s.accLoad.get i + ∑ key ∈ job.keys, s.unplaced job key ≤ s.allocated
  room : s.allocated + pageSize ≤ 2 ^ 64

namespace State

variable {job : Job α κ cfg codec} {key : Key} {s s' : State α κ}

theorem Sound.local (h : s.Sound job) (hl : Local key s s') : s'.Sound job := by
  have hw : ∀ i, s'.waiting i = s.waiting i := by
    intro i
    simp only [waiting, hl.engineQueues, hl.hand]
  have hu : ∀ k, s'.unplaced job k = s.unplaced job k := by
    intro k
    simp only [unplaced, hl.stored, hl.hashCache]
  refine ⟨by rw [hl.engineQueues]; exact h.queues, by rw [hl.accLoad]; exact h.loads,
    fun v hv => (hl.tables v).trans (h.tables v hv), fun i => by rw [hl.engineQueues]; exact h.schedule i,
    fun k t => by rw [hl.hashCache]; exact h.hash_lt k t, fun i m hm => ?_, fun k hk => ?_,
    fun k hk t => ?_, fun k hk => ?_, fun i => ?_, by rw [hl.allocated]; exact h.room⟩
  · rw [hw] at hm
    rw [hl.hashCache]
    exact h.placed i m hm
  · rw [hl.stored] at hk
    rw [hl.len, hl.dtype]
    exact h.stored k hk
  · rw [hl.hashCache] at hk
    by_cases hkey : k = key
    · subst hkey
      rw [hl.blank hk, h.blank k hk]
    · rw [hl.window k hkey, h.blank k hk]
  · rw [hl.hashCache] at hk
    rw [hl.stored]
    exact h.hashed k hk
  · simp only [hl.accLoad, hl.allocated, hu]
    exact h.load i

theorem sound_init (hsync : cfg.syncMode = true) :
    ((startServer cfg).resizeTables cfg.engineThreadNum : State α κ).Sound job := by
  have hq : (startServer cfg : State α κ).engineQueues =
      .replicate cfg.engineThreadNum (.init cfg.enableSchedule) := by
    simp [startServer, hsync]
  refine ⟨congrArg Vec.size hq, rfl, fun v hv => ?_, fun i => ?_, by rintro _ _ ⟨⟩, fun i m hm => ?_,
    by rintro _ ⟨⟩, fun _ _ _ => rfl, by rintro _ ⟨⟩, fun i => ?_,
    by simp [startServer, resizeTables, pageSize]⟩
  · simp only [perThreadTables, List.mem_cons, List.not_mem_nil, or_false] at hv
    rcases hv with rfl | rfl | rfl | rfl | rfl <;> rfl
  · show ((startServer cfg : State α κ).engineQueues.get i).enableSchedule = _
    rw [hq]
    rfl
  · have : (startServer cfg : State α κ).waiting i = [] := by
      simp [waiting, hsync, startServer, Vec.replicate, PriorityQueue.init]
    rw [show ((startServer cfg).resizeTables cfg.engineThreadNum : State α κ).waiting i = _ from
      this] at hm
    cases hm
  · simp [startServer, resizeTables, unplaced, Vec.replicate]

/-- A step about `key`: the server stays sound, and the other keys are kept. -/
structure Serves (job : Job α κ cfg codec) (key : Key) (s s' : State α κ) : Prop where
  sound : s'.Sound job
  kept : ∀ k, k ≠ key → Kept cfg k s s'

namespace Serves

variable {s'' : State α κ}

theorem refl (h : s.Sound job) : Serves job key s s := ⟨h, fun _ _ => .refl s⟩

theorem trans (h : Serves job key s s') (h' : Serves job key s' s'') : Serves job key s s'' :=
  ⟨h'.sound, fun k hk => (h.kept k hk).trans (h'.kept k hk)⟩

theorem of_local (h : s.Sound job) (hl : Local key s s') : Serves job key s s' :=
  ⟨h.local hl, fun _ hk => hl.kept hk⟩

end Serves

/-! ### The view after a write -/

section View

variable (s : State α κ) (key : Key) (phase : ℕ → Phase α) (round : ℕ → ℕ) (log : List (Event α))

theorem view_setRequest (request : List KVMeta) :
    (s.setRequest key request).view key phase round log =
      { s.view key phase round log with request := request.map (·.sender) } := by
  simp only [view, setRequest, Function.update_self]
  rfl

theorem view_setMerged (merged : MergedArray α) :
    (s.setMerged key merged).view key phase round log =
      { s.view key phase round log with merged := merged.tensor.map fun p => (p, merged.len) } := by
  simp only [view, setMerged, Function.update_self]
  rfl

theorem view_setCompressor (c : Compressor α κ) :
    (s.setCompressor key c).view key phase round log =
      { s.view key phase round log with compressor := some c } := by
  simp only [view, setCompressor, Function.update_self]
  rfl

theorem view_writeStored (m : Mem α) :
    (s.write (.stored key) m).view key phase round log =
      { s.view key phase round log with stored := some m } := by
  simp only [view, write, Function.update_self]
  rfl

theorem view_setWindow {t : ℕ} (h : s.hashCache key = some t) (w : Window) :
    (s.setWindow t key w).view key phase round log =
      { s.view key phase round log with window := w } := by
  have hh : (s.setWindow t key w).hashCache key = some t := h
  simp only [view, h, hh, Option.elim_some]
  simp only [window, setWindow, Vec.set_get_self, Function.update_self]
  rfl

theorem view_collectInit (cfg : Config) (req : KVMeta) :
    ((s.collectInit cfg key req).1.view key phase round log, (s.collectInit cfg key req).2) =
      (s.view key phase round log).collect cfg.numWorkers key req.sender := by
  unfold collectInit Slot.collect
  have hlen : ((s.view key phase round log).request ++ [req.sender]).length =
      ((s.updateBuf key).request ++ [req]).length := by simp [view]
  rw [hlen]
  by_cases hlt : ((s.updateBuf key).request ++ [req]).length < cfg.numWorkers
  · simp only [if_pos hlt, view_setRequest]
    simp [view]
  · simp only [if_neg hlt, view_setRequest]
    simp [view]

/-- What a pointer of the key reads is what the slot says. -/
theorem read_view [Zero α] {p : Ptr α} (hp : OwnPtr key p) :
    s.read p = (s.view key phase round log).read p := by
  rcases hp with rfl | rfl <;> rfl

end View

end State

end DeepInc.Server
