/-
The round in progress.

Without scheduling, the pending work of a key is what is left of one round: of its pushes in the
order they arrived, `k` have been executed and the others wait, and the `ALL_RECV` comes last.
The pushes are those of the workers in `updates->request`, or of all workers once the round is
complete.

That there is only one round to be found in the queue is due to the pulls.  A worker pushes
again after its answer, and there are no answers of a round before its `ALL_RECV` was executed.

The first push of a round is a `COPY_FIRST` and the others are `SUM_RECV`.  Which of them a push
is was decided when it arrived, by the number of requests at that time; here it is read off its
place in the round.

None of this depends on what a push is turned into.  Given what each one adds to the stored
buffer, that buffer holds the sum of the first `k`.  This is used twice: for pushes that are
added as they are, and for compressed ones that are decompressed first.
-/
import DeepInc.Proofs.Server.Pulls

namespace DeepInc.Server

open Outcome Transition

variable {α κ : Type} {cfg : Config} {codec : Codec α κ}

/-- The elements of a key. -/
def Job.elements (job : Job α κ cfg codec) (key : Key) : ℕ :=
  job.len key / getDataTypeLength (job.dtype key)

namespace Slot

/-! ### The pushes of a round -/

section Works

variable (job : Job α κ cfg codec) (key : Key)

/-- The work of the pushes of the given workers, the first one first. -/
def pushWorks (r : ℕ) : List ℕ → List (Work α)
  | [] => []
  | w :: ws => .first (job.pushed w key r) (job.pushedLen w key r) ::
      ws.map fun w => .more (job.pushed w key r) (job.pushedLen w key r)

variable {job key}

theorem pushWorks_append (r : ℕ) (ws : List ℕ) (w : ℕ) :
    pushWorks job key r (ws ++ [w]) = pushWorks job key r ws ++
      [if ws = [] then .first (job.pushed w key r) (job.pushedLen w key r)
        else .more (job.pushed w key r) (job.pushedLen w key r)] := by
  cases ws with
  | nil => rfl
  | cons u ws => simp [pushWorks]

@[simp] theorem length_pushWorks (r : ℕ) (ws : List ℕ) :
    (pushWorks job key r ws).length = ws.length := by
  cases ws with
  | nil => rfl
  | cons w ws => simp [pushWorks]

/-- The piece of work at the head of what is left. -/
theorem drop_pushWorks (r : ℕ) {ws : List ℕ} {k : ℕ} (hk : k < ws.length) :
    (pushWorks job key r ws).drop k =
      (if k = 0 then .first (job.pushed ws[k] key r) (job.pushedLen ws[k] key r)
        else .more (job.pushed ws[k] key r) (job.pushedLen ws[k] key r)) ::
      (pushWorks job key r ws).drop (k + 1) := by
  have hlen : k < (pushWorks job key r ws).length := by rwa [length_pushWorks]
  rw [List.drop_eq_getElem_cons hlen]
  congr 1
  cases ws with
  | nil => simp at hk
  | cons w ws =>
      cases k with
      | zero => rfl
      | succ k => simp [pushWorks]

end Works

/-! ### What is left of it

`InProgress` is kept by whatever happens to a slot.  A push lengthens the list of workers, an
execution raises `k`, and an `ALL_RECV` starts again with an empty list.
-/

section InProgress

variable (job : Job α κ cfg codec) (key : Key)

/-- The round in progress: `ws` have pushed in it, and `k` of the pushes are executed. -/
structure InProgress (v : Slot α κ) (ws : List ℕ) (k : ℕ) : Prop where
  le : k ≤ ws.length
  pending : v.pending = (pushWorks job key (publishedRounds key v.log) ws).drop k ++
    if publishedRounds key v.log < issuedRounds key v.log then [.done] else []
  complete : publishedRounds key v.log < issuedRounds key v.log →
    ws.Perm (List.range cfg.numWorkers)
  joined : publishedRounds key v.log = issuedRounds key v.log → ws = v.request

variable {job key} {v : Slot α κ} {ws : List ℕ} {k : ℕ}

namespace InProgress

/-- Nothing has been pushed yet. -/
theorem of_fresh (h : Fresh key v) (hreq : v.request = []) : InProgress job key v [] 0 := by
  refine ⟨Nat.le_refl 0, ?_, fun hlt => ?_, fun _ => hreq.symm⟩
  · simp [h.pending, h.published, h.issued, pushWorks]
  · simp [h.published, h.issued] at hlt

/-- What neither adds to the round nor takes from it keeps it. -/
theorem congr (h : InProgress job key v ws k) {v' : Slot α κ} (hp : v'.pending = v.pending)
    (hr : v'.request = v.request)
    (hD : publishedRounds key v'.log = publishedRounds key v.log)
    (hR : issuedRounds key v'.log = issuedRounds key v.log) : InProgress job key v' ws k := by
  refine ⟨h.le, ?_, ?_, ?_⟩
  · rw [hp, hD, hR]
    exact h.pending
  · rw [hD, hR]
    exact h.complete
  · rw [hD, hR, hr]
    exact h.joined

/-- A push joins the round in progress. -/
theorem pushed (h : InProgress job key v ws k) (hrun : Running job key v) {w : ℕ}
    (hfifo : cfg.enableSchedule = false) (hw : w < cfg.numWorkers) (hp : v.phase w = .push)
    {pending : List (Work α)} (ha : Appends cfg v.pending (v.pushWork job key w) pending) :
    InProgress job key (serve job key
      ((v.setPhase w .pushWait).pushed cfg.numWorkers key w pending)) (ws ++ [w]) k := by
  obtain ⟨hnot, hDR, hround, -⟩ := (hrun.workers w hw).of_push hp hrun.published_le
  have hws : ws = v.request := h.joined hDR
  obtain ⟨hD, hR⟩ := rounds_pushed job key v w pending
  have hpending : pending = (pushWorks job key (publishedRounds key v.log) (ws ++ [w])).drop k ++
      if v.request.length + 1 = cfg.numWorkers then [.done] else [] := by
    have hold := h.pending
    rw [if_neg (by omega), List.append_nil] at hold
    rw [ha.2 hfifo, hold, pushWorks_append, List.drop_append_of_le_length (by simpa using h.le),
      List.append_assoc]
    unfold pushWork
    rw [hround, ← hDR, ← hws]
    rfl
  refine ⟨Nat.le_trans h.le (by simp), ?_, fun hlt => ?_, fun heq => ?_⟩
  · rw [hD, hR, hDR]
    rw [serve_pushed]
    show pending = _
    rw [hpending, hDR]
    split <;> simp
  · rw [hD, hR, hDR] at hlt
    have hfull : v.request.length + 1 = cfg.numWorkers := by
      by_contra hne
      rw [if_neg hne] at hlt
      omega
    rw [hws]
    exact (hrun.joined hw hnot).perm (by simp [hfull])
  · rw [hD, hR, hDR] at heq
    have hopen : v.request.length + 1 ≠ cfg.numWorkers := by
      intro hc
      rw [if_pos hc] at heq
      omega
    rw [serve_pushed, hws]
    exact (if_neg hopen).symm

/-- The first piece of pending work, if there is any. -/
theorem head (h : InProgress job key v ws k) {u : Work α} {rest : List (Work α)}
    (hu : v.pending = u :: rest) :
    (∃ hk : k < ws.length,
      u = (if k = 0
        then .first (job.pushed ws[k] key (publishedRounds key v.log))
          (job.pushedLen ws[k] key (publishedRounds key v.log))
        else .more (job.pushed ws[k] key (publishedRounds key v.log))
          (job.pushedLen ws[k] key (publishedRounds key v.log))) ∧
      rest = (pushWorks job key (publishedRounds key v.log) ws).drop (k + 1) ++
        if publishedRounds key v.log < issuedRounds key v.log then [.done] else []) ∨
    (k = ws.length ∧ u = .done ∧ rest = [] ∧
      publishedRounds key v.log < issuedRounds key v.log) := by
  have hpending := h.pending
  rw [hu] at hpending
  by_cases hk : k < ws.length
  · rw [drop_pushWorks _ hk, List.cons_append] at hpending
    obtain ⟨hhead, hrest⟩ := List.cons.inj hpending
    exact .inl ⟨hk, hhead, hrest⟩
  · have hlen : k = ws.length := Nat.le_antisymm h.le (Nat.le_of_not_lt hk)
    rw [List.drop_eq_nil_of_le (by simp [hlen]), List.nil_append] at hpending
    split at hpending
    · obtain ⟨hhead, hrest⟩ := List.cons.inj hpending
      exact .inr ⟨hlen, hhead, hrest, ‹_›⟩
    · cases hpending

/-- A push is executed: it is a `COPY_FIRST` or a `SUM_RECV`, by its place in the round. -/
theorem executed [Zero α] [Add α] (h : InProgress job key v ws k) {u : Work α} {rest : List (Work α)}
    (hu : v.pending = u :: rest) (hdone : u.isDone = false) :
    ∃ hk : k < ws.length,
      InProgress job key (({ v with pending := rest }).executed job key u).1 ws (k + 1) ∧
      (({ v with pending := rest }).executed job key u) =
        (({ v with pending := rest } : Slot α κ).store job key
          (if k = 0 then CpuReducer.copy else CpuReducer.sum)
          (job.pushed ws[k] key (publishedRounds key v.log))
          (job.pushedLen ws[k] key (publishedRounds key v.log)), []) ∧
      (k = 0 → ∃ data len, u = .first data len) := by
  rcases h.head hu with ⟨hk, hhead, hrest⟩ | ⟨-, rfl, -, -⟩
  · have hnext : ∀ v' : Slot α κ, v'.pending = rest → v'.log = v.log → v'.request = v.request →
        InProgress job key v' ws (k + 1) := by
      intro v' hp hl hr
      refine ⟨hk, ?_, ?_, ?_⟩
      · rw [hp, hl]
        exact hrest
      · rw [hl]
        exact h.complete
      · rw [hl, hr]
        exact h.joined
    refine ⟨hk, ?_⟩
    rw [hhead]
    by_cases hk0 : k = 0
    · rw [if_pos hk0, if_pos hk0]
      exact ⟨hnext _ rfl rfl rfl, rfl, fun _ => ⟨_, _, rfl⟩⟩
    · rw [if_neg hk0, if_neg hk0]
      exact ⟨hnext _ rfl rfl rfl, rfl, fun hc => absurd hc hk0⟩
  · cases hdone

/-- The `ALL_RECV` is executed last, when all workers have pushed. -/
theorem due (h : InProgress job key v ws k) {u : Work α} {rest : List (Work α)}
    (hu : v.pending = u :: rest) (hdone : u.isDone = true) :
    rest = [] ∧ k = ws.length ∧ ws.Perm (List.range cfg.numWorkers) := by
  rcases h.head hu with ⟨hk, hhead, -⟩ | ⟨hk, -, hrest, hlt⟩
  · rw [hhead] at hdone
    split at hdone <;> cases hdone
  · exact ⟨hrest, hk, h.complete hlt⟩

/-- After the `ALL_RECV` a new round is to start. -/
theorem finished [Zero α] (h : InProgress job key v ws k) (hrun : Running job key v)
    (hN : 0 < cfg.numWorkers) {u : Work α} {rest : List (Work α)} (hu : v.pending = u :: rest)
    (hdone : u.isDone = true) :
    InProgress job key (serve job key (({ v with pending := rest }).finished job key)) [] 0 := by
  obtain ⟨rfl, -, -⟩ := h.due hu hdone
  obtain ⟨hR, -, hreq, -⟩ := hrun.of_due hu hdone
  obtain ⟨hD', hR'⟩ := hrun.rounds_finished hu hdone hN
  obtain ⟨stored, compressor, m, hpub, -, -, -⟩ :=
    publish_spec job key ({ v with pending := [] } : Slot α κ)
  obtain ⟨win, hserve, -⟩ := hrun.serve_finished hu hdone hN hpub
  refine ⟨Nat.le_refl 0, ?_, fun hlt => ?_, fun _ => ?_⟩
  · rw [hD', hR', hR, if_neg (Nat.lt_irrefl _), hserve]
    rfl
  · rw [hD', hR', hR] at hlt
    exact absurd hlt (Nat.lt_irrefl _)
  · rw [hserve]
    exact hreq.symm

end InProgress

end InProgress

/-! ### What is summed up -/

variable [AddCommMonoid α] {job : Job α κ cfg codec} {key : Key}

/--
A push is stored: the buffer then holds the sum of one term more.  The first push is
copied, so that nothing is asked of what was in the buffer before it.
-/
theorem read_store (term : ℕ → ℕ → α) {v : Slot α κ} {ws : List ℕ} {k : ℕ} (hk : k < ws.length)
    (hsum : 0 < k → ∀ j < job.elements key,
      v.read (.stored key) j = ((ws.take k).map fun w => term w j).sum)
    {data : Mem α} {len : ℕ} (hterm : ∀ j < job.elements key,
      (v.received job key data len).2 j = term ws[k] j) {j : ℕ} (hj : j < job.elements key) :
    (v.store job key (if k = 0 then CpuReducer.copy else CpuReducer.sum) data len).read
      (.stored key) j = ((ws.take (k + 1)).map fun w => term w j).sum := by
  rw [List.take_succ_eq_append_getElem hk, List.map_append, List.sum_append]
  show (if k = 0 then CpuReducer.copy else CpuReducer.sum) _ _ _ _ j = _
  by_cases hk0 : k = 0
  · subst hk0
    rw [if_pos rfl, CpuReducer.copy_lt hj, hterm j hj]
    simp
  · have hread := hsum (Nat.pos_of_ne_zero hk0) j hj
    rw [if_neg hk0, CpuReducer.sum_lt hj, hterm j hj, ← hread]
    simp [read]

end Slot

/-- A slot whose next piece of work is a `COPY_FIRST` has it in the hand of a thread. -/
theorem World.Inv.hand_of_first {x : World α κ} (hinv : x.Inv job) {a : Move}
    (hshow : World.Shows x key a .execute) {data : Mem α} {len : ℕ} {rest : List (Work α)}
    (hpending : (x.view key).pending = .first data len :: rest) :
    ∃ i m, a = .execute i ∧ m ∈ x.server.hand i ∧ m.key = key ∧ m.ops = .copyFirst ∧
      (x.view key).window = x.server.window i key := by
  cases hshow with
  | @execute i m hm hk =>
      subst hk
      obtain ⟨-, hh, -⟩ := hinv.sound.placed i m (by simp [State.waiting, hm])
      obtain ⟨rest', hpending', -⟩ := hinv.sound.view_dropHand hm (fun u => x.phase u m.key)
        (fun u => x.round u m.key) (x.log.filter fun e => e.key = m.key)
      have hwork : m.work = .first data len :=
        (List.cons.inj (hpending'.symm.trans hpending)).1
      refine ⟨i, m, rfl, hm, rfl, ?_, by simp [World.view, State.view, hh]⟩
      unfold EngineMessage.work at hwork
      split at hwork
      · assumption
      · cases hwork
      · cases hwork

end DeepInc.Server
