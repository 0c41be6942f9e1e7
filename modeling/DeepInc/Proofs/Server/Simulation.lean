/-
The whole, key by key.

A server has many keys, and its threads share queues and tables.  A slot has one key and nothing
of that.  Every step of the server with its workers is a step of at most one slot; seen from
every other key it changes nothing, or, with scheduling on, the order of the pending work.  So
what holds of a slot in every run holds of every key of the whole.

It is shown together with an invariant of the whole, which says that every key is in a state its
slot can be in and that the server is sound.  The second is needed for the first: that a step
does what the slot says includes that it does not fail.  The only way a step can end the server
is that an init push finds no memory.

The other direction is not shown.  A slot may take steps the server cannot take at that time,
because another key is in the way, so that only safety is brought over from the slots.
-/
import DeepInc.Proofs.Server.Execution

namespace DeepInc.Server

open Outcome PriorityQueue Transition

variable {α κ : Type} {cfg : Config} {codec : Codec α κ}

/-! ### The events of a step are about its key

Events are recorded for every key in one list; that a step shows events of its own key only is
what keeps the records of the others as they are.
-/

namespace Slot

variable {job : Job α κ cfg codec} {key : Key}

theorem key_collect {numWorkers : ℕ} {v : Slot α κ} {w : ℕ} :
    ∀ e ∈ (v.collect numWorkers key w).2, e.key = key := by
  unfold collect
  split
  · simp
  · intro e he
    obtain ⟨u, -, rfl⟩ := List.mem_map.mp he
    rfl

theorem key_initPushed [Zero α] (job : Job α κ cfg codec) {v : Slot α κ} {w : ℕ} :
    ∀ e ∈ (v.initPushed job key w).2, e.key = key := by
  unfold initPushed
  split <;> exact key_collect

theorem key_pushed {numWorkers : ℕ} {v : Slot α κ} {w : ℕ} {pending : List (Work α)} :
    ∀ e ∈ (v.pushed numWorkers key w pending).2, e.key = key := by
  by_cases hlast : v.request.length + 1 = numWorkers <;> simp [pushed, hlast, Event.key]

theorem key_pullNow [Zero α] {numWorkers : ℕ} {v : Slot α κ} {m : Ptr α × ℕ} {w : ℕ} :
    ∀ e ∈ (v.pullNow numWorkers key m w).2, e.key = key := by
  simp [pullNow, Event.key, response]

theorem key_executed [Zero α] [Add α] {v : Slot α κ} {u : Work α} :
    ∀ e ∈ (v.executed job key u).2, e.key = key := by
  cases u with
  | first data len => simp [executed]
  | more data len => simp [executed]
  | done =>
      intro e he
      simp only [executed, finished, List.mem_cons, List.mem_map] at he
      rcases he with rfl | ⟨req, -, rfl⟩ <;> rfl

end Slot

/-! ### Recording events -/

namespace World

variable {job : Job α κ cfg codec} {key : Key} {x x' : World α κ}

theorem view_setPhase_self (x : World α κ) (w : ℕ) (key : Key) (p : Phase α) :
    (x.setPhase w key p).view key = (x.view key).setPhase w p := by
  have hphase : (fun u => (x.setPhase w key p).phase u key) =
      Function.update (fun u => x.phase u key) w p := by
    funext u
    by_cases hu : u = w
    · subst hu; simp [setPhase]
    · simp [setPhase, hu]
  unfold view
  rw [hphase]
  rfl

theorem phase_setPhase_ne (x : World α κ) (w : ℕ) {k : Key} (hk : k ≠ key) (p : Phase α) (u : ℕ) :
    (x.setPhase w key p).phase u k = x.phase u k := by
  by_cases hu : u = w
  · subst hu; simp [setPhase, hk]
  · simp [setPhase, hu]

theorem view_setPhase_ne (x : World α κ) (w : ℕ) {k : Key} (hk : k ≠ key) (p : Phase α) :
    (x.setPhase w key p).view k = x.view k := by
  unfold view
  simp only [phase_setPhase_ne x w hk p]
  rfl

/-- Other keys do not see a request on its way. -/
theorem setPhase_other (x : World α κ) (w : ℕ) (key : Key) (p : Phase α) (k : Key) (hk : k ≠ key) :
    (∀ s, ({ x.setPhase w key p with server := s } : World α κ).view k =
      ({ x with server := s } : World α κ).view k) ∧
      ∀ u, (x.setPhase w key p).phase u k = x.phase u k :=
  ⟨fun s => view_setPhase_ne { x with server := s } w hk p, phase_setPhase_ne x w hk p⟩

theorem view_observe_self (job : Job α κ cfg codec) (x : World α κ) {e : Event α}
    (he : e.key = key) : (x.observe job e).view key = (x.view key).observe job key e := by
  have hlog : ({ x with log := e :: x.log } : World α κ).view key =
      { x.view key with log := e :: (x.view key).log } := by
    simp [view, State.view, he]
  cases e with
  | pushResponse k w =>
      obtain rfl : k = key := he
      simp only [observe, Slot.observe, view_setPhase_self, hlog]
      rfl
  | pullResponse r =>
      obtain rfl : r.key = key := he
      simp only [observe, Slot.observe, view_setPhase_self, hlog]
  | issued k ops => exact hlog
  | pullRequest k w => exact hlog
  | published k content len => exact hlog
  | delivered r content => exact hlog

theorem observe_ne (job : Job α κ cfg codec) (x : World α κ) {e : Event α} {k : Key}
    (he : e.key ≠ k) :
    (x.observe job e).view k = x.view k ∧ ∀ u, (x.observe job e).phase u k = x.phase u k := by
  have hlog : ({ x with log := e :: x.log } : World α κ).view k = x.view k := by
    simp [view, State.view, he]
  cases e with
  | pushResponse k' w =>
      have hk : k ≠ k' := Ne.symm he
      simp only [observe, view_setPhase_ne _ w hk, hlog, phase_setPhase_ne _ w hk, true_and]
      exact fun _ => trivial
  | pullResponse r =>
      have hk : k ≠ r.key := Ne.symm he
      simp only [observe, view_setPhase_ne _ _ hk, hlog, phase_setPhase_ne _ _ hk, true_and]
      exact fun _ => trivial
  | issued k' ops => exact ⟨hlog, fun _ => rfl⟩
  | pullRequest k' w => exact ⟨hlog, fun _ => rfl⟩
  | published k' content len => exact ⟨hlog, fun _ => rfl⟩
  | delivered r content => exact ⟨hlog, fun _ => rfl⟩

theorem observe_server (job : Job α κ cfg codec) (x : World α κ) (e : Event α) :
    (x.observe job e).server = x.server := by
  cases e <;> rfl

theorem serve_server (job : Job α κ cfg codec) (x : World α κ) (s : State α κ)
    (es : List (Event α)) : (x.serve job (s, es)).server = s := by
  have hfold : ∀ y : World α κ, (es.foldl (observe job) y).server = y.server := by
    induction es with
    | nil => intro y; rfl
    | cons e es ih => intro y; rw [List.foldl_cons, ih, observe_server]
  exact hfold _

theorem view_serve_self (job : Job α κ cfg codec) (x : World α κ) (s : State α κ)
    {es : List (Event α)} (hes : ∀ e ∈ es, e.key = key) :
    (x.serve job (s, es)).view key =
      Slot.serve job key (({ x with server := s } : World α κ).view key, es) := by
  have hfold : ∀ y : World α κ, (es.foldl (observe job) y).view key =
      es.foldl (Slot.observe job key) (y.view key) := by
    induction es with
    | nil => intro y; rfl
    | cons e es ih =>
        intro y
        rw [List.foldl_cons, List.foldl_cons, ih (fun e' he' => hes e' (by simp [he'])),
          view_observe_self job y (hes e (by simp))]
  exact hfold _

theorem serve_ne (job : Job α κ cfg codec) (x : World α κ) (s : State α κ)
    {es : List (Event α)} {k : Key} (hes : ∀ e ∈ es, e.key ≠ k) :
    (x.serve job (s, es)).view k = ({ x with server := s } : World α κ).view k ∧
      ∀ u, (x.serve job (s, es)).phase u k = x.phase u k := by
  have hfold : ∀ y : World α κ, (es.foldl (observe job) y).view k = y.view k ∧
      ∀ u, (es.foldl (observe job) y).phase u k = y.phase u k := by
    induction es with
    | nil => intro y; exact ⟨rfl, fun _ => rfl⟩
    | cons e es ih =>
        intro y
        have hrest := ih (fun e' he' => hes e' (by simp [he'])) (y.observe job e)
        have hfirst := y.observe_ne job (hes e (by simp))
        rw [List.foldl_cons]
        exact ⟨hrest.1.trans hfirst.1, fun u => (hrest.2 u).trans (hfirst.2 u)⟩
  exact hfold _

theorem view_init (hsync : cfg.syncMode = true) (key : Key) :
    (World.init cfg : World α κ).view key = Slot.init := by
  simp [view, State.view, World.init, startServer, State.resizeTables, Slot.init, hsync]

/-! ### A step of the whole

`Shows` is what a key sees of a step, and `Moved` what a step leads to: the invariant, and that
every key sees a step of its slot or none.
-/

/-- Seen from `key`, the move is a step of its slot; the order of work may change any time. -/
inductive Shows (x : World α κ) (key : Key) : Move → SlotMove → Prop
  | request (w : ℕ) : Shows x key (.request w key) (.request w)
  | execute {i : ℕ} {m : EngineMessage α} (hm : x.server.hand i = some m) (hk : m.key = key) :
    Shows x key (.execute i) .execute
  | deliver (w : ℕ) : Shows x key (.deliver w key) (.deliver w)
  | shuffle (a : Move) : Shows x key a .shuffle

variable [Zero α] [Add α]

/-- What holds of the whole in every run. -/
structure Inv (job : Job α κ cfg codec) (x : World α κ) : Prop where
  sound : x.server.Sound job
  outside : ∀ key, key ∉ job.keys → ∀ w, x.phase w key = .initPush
  slots : ∀ key ∈ job.keys, Slot.Inv job key (x.view key)

/-- What a step leads to. -/
structure Moved (job : Job α κ cfg codec) (x : World α κ) (a : Move) (x' : World α κ) : Prop where
  sound : x'.server.Sound job
  outside : ∀ key, key ∉ job.keys → ∀ w, x'.phase w key = .initPush
  slots : ∀ key ∈ job.keys, x'.view key = x.view key ∨
    ∃ b, Shows x key a b ∧ Slot.Step job key (x.view key) b (x'.view key)

theorem Moved.inv (hN : 0 < cfg.numWorkers) (h : x.Inv job) {a : Move} (hm : Moved job x a x') :
    x'.Inv job := by
  refine ⟨hm.sound, hm.outside, fun key hk => ?_⟩
  rcases hm.slots key hk with heq | ⟨b, -, hstep⟩
  · rw [heq]
    exact h.slots key hk
  · exact (h.slots key hk).step hN hstep

/-- A key the step is not about sees nothing, or work change its order. -/
theorem kept_slot {s' : State α κ} {k : Key} (hkept : Kept cfg k x.server s') (a : Move) :
    ({ x with server := s' } : World α κ).view k = x.view k ∨
      ∃ b, Shows x k a b ∧
        Slot.Step job k (x.view k) b (({ x with server := s' } : World α κ).view k) := by
  obtain ⟨pending, hperm, hfifo, hview⟩ := hkept.view (fun w => x.phase w k)
    (fun w => x.round w k) (x.log.filter fun e => e.key = k)
  have hview' : ({ x with server := s' } : World α κ).view k =
      { x.view k with pending := pending } := hview
  rw [hview']
  cases hs : cfg.enableSchedule with
  | true => exact .inr ⟨.shuffle, .shuffle a, .shuffle hs hperm⟩
  | false =>
      rw [hfifo hs]
      exact .inl rfl

/--
A step about `key`: `x₁` is the whole with the request on its way, and the server does
the rest.
-/
theorem Moved.of_serves (h : x.Inv job) {x₁ : World α κ} {s' : State α κ}
    {es : List (Event α)} {a : Move} {b : SlotMove} (hk : key ∈ job.keys)
    (hother : ∀ k, k ≠ key → (∀ s, ({ x₁ with server := s } : World α κ).view k =
      ({ x with server := s } : World α κ).view k) ∧ ∀ w, x₁.phase w k = x.phase w k)
    (hserves : State.Serves job key x.server s') (hes : ∀ e ∈ es, e.key = key)
    (hshow : Shows x key a b)
    (hstep : Slot.Step job key (x.view key) b
      (Slot.serve job key (({ x₁ with server := s' } : World α κ).view key, es))) :
    Moved job x a (x₁.serve job (s', es)) := by
  have hne : ∀ k, k ≠ key → ∀ e ∈ es, e.key ≠ k := by
    rintro k hk e he rfl
    exact hk (hes e he)
  refine ⟨?_, fun k hnot w => ?_, fun k hmem => ?_⟩
  · rw [serve_server]
    exact hserves.sound
  · have hkk : k ≠ key := by
      rintro rfl
      exact hnot hk
    rw [(x₁.serve_ne job s' (hne k hkk)).2, (hother k hkk).2]
    exact h.outside k hnot w
  · by_cases hkk : k = key
    · subst hkk
      rw [x₁.view_serve_self job s' hes]
      exact .inr ⟨b, hshow, hstep⟩
    · rw [(x₁.serve_ne job s' (hne k hkk)).1, (hother k hkk).1]
      exact kept_slot (hserves.kept k hkk) a

/-! ### Requests -/

section Requests

variable {w : ℕ}

theorem sendRequest_push (job : Job α κ cfg codec) (x : World α κ) (w : ℕ) (key : Key)
    (p : Phase α) {req : KVMeta} (hpush : req.push = true) (data : KVPairs α) :
    x.sendRequest job w key p req data =
      (x.server.handle cfg codec req data).map ((x.setPhase w key p).serve job) := by
  unfold sendRequest
  simp only [hpush, if_true]
  rfl

theorem sendRequest_pull (job : Job α κ cfg codec) (x : World α κ) (w : ℕ) (key : Key)
    (p : Phase α) {req : KVMeta} (hpush : req.push = false) (data : KVPairs α) :
    x.sendRequest job w key p req data =
      (x.server.handle cfg codec req data).map
        (((x.setPhase w key p).observe job (.pullRequest key w)).serve job) := by
  unfold sendRequest
  simp only [hpush, Bool.false_eq_true, if_false, observe_server]
  rfl

/-- A worker's init push. -/
theorem Inv.initPush (h : x.Inv job) (hw : w < cfg.numWorkers)
    (hk : key ∈ job.keys) (hp : x.phase w key = .initPush) :
    Ensures (x.sendRequest job w key .initWait (job.reqMeta w key .kDefaultPushPull true)
      (Job.pushData cfg key (job.init w key) (job.len key))) (Moved job x (.request w key))
      (NoMemory job x.server) := by
  obtain ⟨hs, hm⟩ := (h.slots key hk).of_initPush hw hp
  have hs' : (x.server.store key).tensor = none := hs
  have hm' : (x.server.updateBuf key).merged.tensor = none := by
    simpa [view, State.view] using hm
  rw [sendRequest_push job x w key _ rfl]
  set x₁ := x.setPhase w key .initWait with hx₁
  refine Ensures.map ?_
  rw [State.handle_push x.server w hk, hs']
  refine (h.sound.initPush (fun u => x₁.phase u key) (fun u => x₁.round u key)
    (x₁.log.filter fun e => e.key = key) hk hs' hm' w).mono (fun r hr => ?_) fun _ he => he
  obtain ⟨hserves, hview⟩ := hr
  have hview' : (({ x₁ with server := r.1 } : World α κ).view key, r.2) =
      ((x.view key).setPhase w .initWait).initPushed job key w := by
    rw [← view_setPhase_self]
    exact hview
  refine Moved.of_serves h hk (setPhase_other x w key _) hserves (fun e he => ?_) (.request w) ?_
  · refine Slot.key_initPushed job (v := (x.view key).setPhase w .initWait) (w := w) e ?_
    rw [← hview']
    exact he
  · rw [hview']
    exact .init hw hp hs

/-- A worker's registration of a compressor. -/
theorem Inv.registerPush (h : x.Inv job) (hw : w < cfg.numWorkers) (hk : key ∈ job.keys)
    (hp : x.phase w key = .registerPush) :
    Ensures (x.sendRequest job w key .registerWait (job.reqMeta w key .kCompressedPushPull true)
      (Job.pushData cfg key (job.content key) (job.contentLen key)))
      (Moved job x (.request w key)) (NoMemory job x.server) := by
  obtain ⟨hs, hc⟩ := (h.slots key hk).of_registerPush hw hp
  rw [sendRequest_push job x w key _ rfl]
  set x₁ := x.setPhase w key .registerWait with hx₁
  obtain ⟨s', c, hok, hserves, hview⟩ := h.sound.register (fun u => x₁.phase u key)
    (fun u => x₁.round u key) (x₁.log.filter fun e => e.key = key) (by exact hs) hc w
  have hv : x.server.view key (fun u => x₁.phase u key) (fun u => x₁.round u key)
      (x₁.log.filter fun e => e.key = key) = (x.view key).setPhase w .registerWait :=
    view_setPhase_self x w key _
  rw [hv] at hok hview
  rw [State.handle_register x.server w hk, hok]
  refine .ok (Moved.of_serves h hk (setPhase_other x w key _) hserves ?_ (.request w) ?_)
  · exact Slot.key_collect
  · rw [show ({ x₁ with server := s' } : World α κ).view key = _ from hview]
    exact .register hw hp

/-- A worker's push. -/
theorem Inv.push (hcfg : cfg.RunsSync) (h : x.Inv job) (hw : w < cfg.numWorkers)
    (hk : key ∈ job.keys) (hp : x.phase w key = .push) :
    Ensures (x.sendRequest job w key .pushWait (job.reqMeta w key .kDefaultPushPull true)
      (Job.pushData cfg key (job.pushed w key (x.round w key)) (job.pushedLen w key (x.round w key))))
      (Moved job x (.request w key)) (NoMemory job x.server) := by
  have hrun := (h.slots key hk).running_of (w := w) (by
    rw [show (x.view key).phase w = _ from hp]
    trivial)
  have hs : (x.server.store key).tensor.isSome = true := hrun.stored
  obtain ⟨tensor, htensor⟩ := Option.isSome_iff_exists.mp hs
  rw [sendRequest_push job x w key _ rfl]
  set x₁ := x.setPhase w key .pushWait with hx₁
  obtain ⟨s', pending, hok, hserves, happ, hview⟩ := h.sound.push (fun u => x₁.phase u key)
    (fun u => x₁.round u key) (x₁.log.filter fun e => e.key = key) hcfg.engineThreadNum
    hcfg.syncMode hcfg.isEngineBlocking hk hs w
    (job.pushed w key (x.round w key)) (job.pushedLen_pos w key (x.round w key))
    (job.pushedLen_le w key (x.round w key))
  have hv : x.server.view key (fun u => x₁.phase u key) (fun u => x₁.round u key)
      (x₁.log.filter fun e => e.key = key) = (x.view key).setPhase w .pushWait :=
    view_setPhase_self x w key _
  rw [hv] at hok happ hview
  rw [State.handle_push x.server w hk, htensor, hok]
  refine .ok (Moved.of_serves h hk (setPhase_other x w key _) hserves ?_ (.request w) ?_)
  · exact Slot.key_pushed
  · rw [show ({ x₁ with server := s' } : World α κ).view key = _ from hview]
    exact .push hw hp happ

/-- A worker's pull. -/
theorem Inv.pull (hcfg : cfg.RunsSync) (h : x.Inv job) (hw : w < cfg.numWorkers)
    (hk : key ∈ job.keys) (hp : x.phase w key = .pull) :
    Ensures (x.sendRequest job w key .pullWait (job.reqMeta w key .kDefaultPushPull false)
      (Job.pullData cfg key)) (Moved job x (.request w key)) (NoMemory job x.server) := by
  have hrun := (h.slots key hk).running_of (w := w) (by
    rw [show (x.view key).phase w = _ from hp]
    trivial)
  have hs : (x.server.store key).tensor.isSome = true := hrun.stored
  obtain ⟨t, ht⟩ := Option.isSome_iff_exists.mp (hrun.hashed w (.inl hp))
  rw [sendRequest_pull job x w key _ rfl]
  set req := job.reqMeta w key .kDefaultPushPull false with hreq
  set x₁ := (x.setPhase w key .pullWait).observe job (.pullRequest key w) with hx₁
  have hv : x.server.view key (fun u => x₁.phase u key) (fun u => x₁.round u key)
      (x₁.log.filter fun e => e.key = key) =
        ((x.view key).setPhase w .pullWait).observe job key (.pullRequest key w) := by
    rw [← view_setPhase_self]
    have hkey : (Event.pullRequest key w : Event α).key = key := rfl
    exact view_observe_self job (x.setPhase w key .pullWait) hkey
  have hother : ∀ k, k ≠ key → (∀ s, ({ x₁ with server := s } : World α κ).view k =
      ({ x with server := s } : World α κ).view k) ∧ ∀ u, x₁.phase u k = x.phase u k := by
    intro k hkk
    have hpull : ∀ y : World α κ, (y.observe job (.pullRequest key w)).view k = y.view k :=
      fun y => (y.observe_ne job (Ne.symm hkk)).1
    exact ⟨fun s => (hpull ({ x.setPhase w key .pullWait with server := s })).trans
      ((setPhase_other x w key _ k hkk).1 s), (setPhase_other x w key _ k hkk).2⟩
  rw [State.handle_pull x.server w hk]
  by_cases hans : (x.view key).Answers w
  · obtain ⟨m, hm⟩ := Option.isSome_iff_exists.mp (hrun.merged_of_answers hans)
    obtain ⟨s', hok, hserves, hview⟩ := h.sound.pull _ _ _ hcfg.syncMode hcfg.isEngineBlocking hs
      ht req (.inr ⟨by rw [hv]; exact hans, m, by rw [hv]; exact hm, hrun.merged_own m hm, rfl⟩)
    rw [hv] at hok hview
    rw [hok]
    refine .ok (Moved.of_serves h hk hother hserves ?_ (.request w) ?_)
    · exact Slot.key_pullNow
    · rw [show ({ x₁ with server := s' } : World α κ).view key = _ from hview]
      exact .pullNow hw hp hans hm
  · obtain ⟨s', hok, hserves, hview⟩ := h.sound.pull _ _ _ hcfg.syncMode hcfg.isEngineBlocking hs
      ht req (.inl ⟨by rw [hv]; exact hans, rfl⟩)
    rw [hv] at hok hview
    rw [hok]
    refine .ok (Moved.of_serves h hk hother hserves ?_ (.request w) ?_)
    · simp [Slot.pullLater]
    · rw [show ({ x₁ with server := s' } : World α κ).view key = _ from hview]
      exact .pullLater hw hp rfl hans

end Requests

/-! ### Engine threads and deliveries -/

/-- A thread takes its next message. -/
theorem Inv.pop (h : x.Inv job) (i : ℕ) :
    Moved job x (.pop i) { x with server := x.server.pop i } := by
  obtain ⟨hsound, hkept⟩ := h.sound.pop i
  exact ⟨hsound, h.outside, fun k _ => kept_slot (hkept k) _⟩

/-- A thread executes the message in its hand. -/
theorem Inv.execute (h : x.Inv job) (i : ℕ) :
    Ensures ((x.server.execute cfg codec i).map (x.serve job)) (Moved job x (.execute i))
      (NoMemory job x.server) := by
  cases hm : x.server.hand i with
  | none =>
      have hexec : x.server.execute cfg codec i = .ok (x.server, []) := by
        unfold State.execute
        rw [hm]
      rw [hexec]
      exact .ok ⟨h.sound, h.outside, fun k _ => .inl rfl⟩
  | some m =>
      obtain ⟨hk, -, -⟩ := h.sound.placed i m (by simp [State.waiting, hm])
      obtain ⟨s', rest, hpending, hexec, hserves, hview⟩ := h.sound.execute
        (fun u => x.phase u m.key) (fun u => x.round u m.key)
        (x.log.filter fun e => e.key = m.key) hm
      rw [hexec]
      refine .ok (Moved.of_serves h hk (fun k _ => ⟨fun _ => rfl, fun _ => rfl⟩) hserves ?_
        (.execute hm rfl) ?_)
      · exact Slot.key_executed
      · rw [show ({ x with server := s' } : World α κ).view m.key = _ from hview]
        exact .execute hpending

/-- An answer reaches its worker. -/
theorem Inv.deliver (h : x.Inv job) {w : ℕ} {r : Response α} (hp : x.phase w key = .answered r) :
    Moved job x (.deliver w key)
      { (x.observe job (.delivered r (x.server.read r.ptr))).setPhase w key .push with
        round := Function.update x.round w
          (Function.update (x.round w) key (x.round w key + 1)) } := by
  have hk : key ∈ job.keys := by
    by_contra hnot
    have := h.outside key hnot w
    rw [hp] at this
    cases this
  have hrun := (h.slots key hk).running_of (w := w) (by
    rw [show (x.view key).phase w = _ from hp]
    trivial)
  obtain ⟨-, hkey, hown⟩ := hrun.held w r hp
  set e : Event α := .delivered r (x.server.read r.ptr) with he
  have hround : ∀ u k, Function.update x.round w
      (Function.update (x.round w) key (x.round w key + 1)) u k =
      if u = w ∧ k = key then x.round w key + 1 else x.round u k := by
    intro u k
    by_cases hu : u = w
    · subst hu
      by_cases hkk : k = key <;> simp [hkk]
    · simp [hu]
  refine ⟨?_, fun k hnot u => ?_, fun k _ => ?_⟩
  · exact h.sound
  · have hkk : k ≠ key := by
      rintro rfl
      exact hnot hk
    show ((x.observe job e).setPhase w key .push).phase u k = _
    rw [phase_setPhase_ne _ w hkk]
    exact h.outside k hnot u
  · by_cases hkk : k = key
    · subst hkk
      refine .inr ⟨.deliver w, .deliver w, ?_⟩
      have hstep : Slot.Step job k (x.view k) (.deliver w) _ := .deliver hp
      have hread : (x.view k).read r.ptr = x.server.read r.ptr :=
        (x.server.read_view k _ _ _ hown).symm
      rw [hread, ← x.view_observe_self job (e := e) hkey, ← view_setPhase_self] at hstep
      have hrounds : (fun u => Function.update x.round w
          (Function.update (x.round w) k (x.round w k + 1)) u k) =
          Function.update (x.view k).round w ((x.view k).round w + 1) := by
        funext u
        rw [hround]
        by_cases hu : u = w
        · subst hu; simp [view, State.view]
        · simp [view, State.view, hu]
      rw [← hrounds] at hstep
      exact hstep
    · have hne : e.key ≠ k := fun hc => hkk (hc.symm.trans hkey)
      have hother := (view_setPhase_ne (x.observe job e) w hkk .push).trans
        (x.observe_ne job hne).1
      refine .inl ?_
      have hrounds : (fun u => Function.update x.round w
          (Function.update (x.round w) key (x.round w key + 1)) u k) = fun u => x.round u k := by
        funext u
        rw [hround, if_neg (fun hc => hkk hc.2)]
      rw [← hother]
      unfold view
      simp only [hrounds]
      rfl

/-! ### Every run of the whole

By induction over the steps, for any moves in any order.  `slot_reachable` is how later files
use it: from a run of the server to a run of the slot of a key, with a condition on the moves
carried along.
-/

/-- A step that fails, fails for want of memory. -/
theorem Inv.move (hcfg : cfg.RunsSync) (h : x.Inv job) {a : Move}
    {r : Except Fault (World α κ)} (hr : x.move job a = some r) :
    Ensures r (Moved job x a) (NoMemory job x.server) := by
  cases a with
  | pop i =>
      obtain rfl := Option.some.inj hr
      exact .ok (h.pop i)
  | execute i =>
      obtain rfl := Option.some.inj hr
      exact h.execute i
  | deliver w key =>
      simp only [World.move] at hr
      cases hp : x.phase w key with
      | answered r' =>
          rw [hp] at hr
          obtain rfl := Option.some.inj hr
          exact .ok (h.deliver hp)
      | _ => rw [hp] at hr; cases hr
  | request w key =>
      simp only [World.move] at hr
      split at hr
      · rename_i hwk
        obtain ⟨hw, hk⟩ := hwk
        cases hp : x.phase w key with
        | initPush =>
            rw [hp] at hr
            obtain rfl := Option.some.inj hr
            exact h.initPush hw hk hp
        | registerPush =>
            rw [hp] at hr
            obtain rfl := Option.some.inj hr
            exact h.registerPush hw hk hp
        | push =>
            rw [hp] at hr
            obtain rfl := Option.some.inj hr
            exact h.push hcfg hw hk hp
        | pull =>
            rw [hp] at hr
            obtain rfl := Option.some.inj hr
            exact h.pull hcfg hw hk hp
        | _ => rw [hp] at hr; cases hr
      · cases hr

omit [Zero α] [Add α] in
theorem inv_init (hcfg : cfg.RunsSync) : (World.init cfg : World α κ).Inv job := by
  refine ⟨State.sound_init hcfg.syncMode, fun _ _ _ => rfl, fun key _ => ?_⟩
  rw [view_init hcfg.syncMode]
  exact Slot.inv_init hcfg.numWorkers

/-- The states the server and its workers reach. -/
def Reached (job : Job α κ cfg codec) (x : World α κ) : Prop :=
  Reachable (· = World.init cfg) (Step job) x

theorem inv_of_reached (hcfg : cfg.RunsSync) (h : Reached job x) : x.Inv job := by
  refine h.invariant ?_ fun x a x' _ hinv hstep => ?_
  · rintro x rfl
    exact inv_init hcfg
  · exact ((hinv.move hcfg hstep).of_ok).inv hcfg.numWorkers hinv

/-- Every run meets a condition that always holds. -/
theorem guarded_of_reached (h : Reached job x) :
    Reachable (· = World.init cfg) (Guarded (fun _ _ => True) (Step job)) x := by
  induction h with
  | start h => exact .start h
  | next _ hstep ih => exact .next ih ⟨trivial, hstep⟩

/-- Take the moves one after another, as long as each can be taken and is admitted. -/
def after (job : Job α κ cfg codec) (allow : World α κ → Move → Bool) :
    World α κ → List Move → Option (World α κ)
  | x, [] => some x
  | x, a :: rest =>
    match allow x a, x.move job a with
    | true, some (.ok x') => after job allow x' rest
    | _, _ => none

theorem reachable_after {guard : World α κ → Move → Prop} {allow : World α κ → Move → Bool}
    (hallow : ∀ x a, allow x a = true → guard x a)
    (hx : Reachable (· = World.init cfg) (Guarded guard (Step job)) x) {moves : List Move}
    (h : x.after job allow moves = some x') :
    Reachable (· = World.init cfg) (Guarded guard (Step job)) x' := by
  induction moves generalizing x with
  | nil => exact Option.some.inj h ▸ hx
  | cons a rest ih =>
      simp only [after] at h
      split at h
      · exact ih (.next hx ⟨hallow _ _ ‹_›, ‹_›⟩) h
      · cases h

theorem reached_after {moves : List Move}
    (h : (World.init cfg).after job (fun _ _ => true) moves = some x) : Reached job x :=
  (reachable_after (fun _ _ _ => True.intro) (.start rfl) h).of_guarded

/-- Seen from a key, a run is a run of its slot, whose steps meet what the moves meet. -/
theorem slot_reachable (hcfg : cfg.RunsSync) {guard : World α κ → Move → Prop}
    (hk : key ∈ job.keys) (guard' : Slot α κ → SlotMove → Prop)
    (hguard : ∀ x a b, x.Inv job → guard x a → Shows x key a b → guard' (x.view key) b)
    (h : Reachable (· = World.init cfg) (Guarded guard (Step job)) x) :
    Reachable (· = Slot.init) (Guarded guard' (Slot.Step job key)) (x.view key) := by
  refine h.simulate (fun x : World α κ => x.view key) ?_ fun x a x' hr hstep => ?_
  · rintro x rfl
    exact view_init hcfg.syncMode key
  · have hinv := inv_of_reached hcfg hr.of_guarded
    rcases ((hinv.move hcfg hstep.2).of_ok).slots key hk with heq | ⟨b, hshow, hslot⟩
    · exact .inl heq
    · exact .inr ⟨b, hguard x a b hinv hstep.1 hshow, hslot⟩

end World

end DeepInc.Server
