/-
The pull window of a key.

The server does not count rounds.  What it has of them is one window for each key: a flag that
says that a round is finished and not everybody has its answer, the number of answers given, the
workers who have theirs, and the pulls that wait for the next round.

With `D` rounds of a key processed, every worker has been answered `D` times or one time less.
The window is a reading of these counts: it is open exactly while some worker has one answer
less than `D`, and `seen_sender_` holds the workers who have all `D`.  When the last of them is
answered it is closed and emptied.

`Worker` is what holds of one worker in its rounds, and `WindowInv` what holds of the window;
answering a worker and processing an `ALL_RECV` keep the latter.  Both are about numbers and
sets only, so that nothing of the server is needed to work with them.
-/
import DeepInc.Proofs.Server.Slot
import Mathlib.Data.Finset.Range
import Mathlib.Data.Finset.Dedup

namespace DeepInc.Server

variable {α κ : Type} {cfg : Config} {codec : Codec α κ}

/--
A worker in its rounds, when `R` rounds were issued and `D` processed: `joined` says
that it stands in `updates->request`, and the counts are its rounds, answers, pulls
and deliveries.
-/
structure Worker (D R : ℕ) (joined : Prop) [Decidable joined] (p : Phase α)
    (round answers pulls deliveries : ℕ) : Prop where
  phase : p.InRound
  pushed : round + p.ahead = R + if joined then 1 else 0
  answered : answers = round + p.held
  pulled : pulls = answers + p.waits
  delivered : deliveries = round
  lag : D ≤ answers + 1
  lead : answers ≤ D
  fresh : p = .pullWait → answers = D

/-- The window of a key, given the answers of every worker. -/
structure WindowInv (numWorkers D : ℕ) (answers : ℕ → ℕ) (waits : ℕ → Prop) (w : Window) :
    Prop where
  opened : w.isPushFinished = some true ↔ ∃ v < numWorkers, answers v < D
  seen : ∀ v, v ∈ w.seenSender ↔
    w.isPushFinished = some true ∧ v < numWorkers ∧ answers v = D
  count : w.pullCnt = w.seenSender.card
  waiting : ∀ v, v ∈ w.qPullReqmeta.map (·.sender) ↔ v < numWorkers ∧ waits v
  nodup : (w.qPullReqmeta.map (·.sender)).Nodup

/-! ### Workers who join one after the other -/

/-- Distinct workers, out of `n`. -/
structure Joined (n : ℕ) (l : List ℕ) : Prop where
  nodup : l.Nodup
  lt : ∀ w ∈ l, w < n

namespace Joined

variable {n : ℕ} {l : List ℕ} {w : ℕ}

theorem concat (h : Joined n l) (hw : w < n) (hnot : w ∉ l) : Joined n (l ++ [w]) := by
  refine ⟨?_, fun u hu => ?_⟩
  · rw [← List.concat_eq_append]
    exact h.nodup.concat hnot
  · rcases List.mem_append.mp hu with hu | hu
    · exact h.lt u hu
    · exact List.mem_singleton.mp hu ▸ hw

/-- As many as there are, are all of them. -/
theorem mem (h : Joined n l) (hlen : n ≤ l.length) (hw : w < n) : w ∈ l := by
  have hsub : l.toFinset ⊆ Finset.range n := by
    intro u hu
    exact Finset.mem_range.mpr (h.lt u (List.mem_toFinset.mp hu))
  have hcard : (Finset.range n).card ≤ l.toFinset.card := by
    rw [List.toFinset_card_of_nodup h.nodup, Finset.card_range]
    exact hlen
  rw [← List.mem_toFinset, Finset.eq_of_subset_of_card_le hsub hcard]
  exact Finset.mem_range.mpr hw

theorem perm (h : Joined n l) (hlen : n ≤ l.length) : l.Perm (List.range n) := by
  refine (List.perm_ext_iff_of_nodup h.nodup List.nodup_range).mpr fun u => ?_
  rw [List.mem_range]
  exact ⟨h.lt u, h.mem hlen⟩

end Joined

/-! ### What the counts say

Each of these takes the counts of one worker and what it is about to do, and gives a relation
between `R` and `D`.
-/

namespace Worker

variable {D R : ℕ} {joined : Prop} [Decidable joined] {p : Phase α} {round answers pulls' del : ℕ}

/-- A worker who has not joined the round limits how far it can have got. -/
theorem issued_le (h : Worker D R joined p round answers pulls' del) (hj : ¬joined) : R ≤ D + 1 := by
  have h1 := h.pushed
  have h2 := h.answered
  have h3 := h.lead
  have h4 : p.ahead ≤ p.held + 1 := by cases p <;> simp [Phase.ahead, Phase.held]
  rw [if_neg hj] at h1
  omega

/-- A worker who is about to push has all answers, and so every round is processed. -/
theorem of_push (h : Worker D R joined p round answers pulls' del) (hp : p = .push) (hDR : D ≤ R) :
    ¬joined ∧ D = R ∧ round = R ∧ answers = R := by
  have h1 := h.pushed
  have h2 := h.answered
  have h3 := h.lead
  have h4 := h.lag
  subst hp
  by_cases hj : joined
  · rw [if_pos hj] at h1
    simp only [Phase.ahead, Phase.held] at h1 h2
    omega
  · rw [if_neg hj] at h1
    simp only [Phase.ahead, Phase.held] at h1 h2
    refine ⟨hj, ?_, ?_, ?_⟩ <;> omega

/-- While an `ALL_RECV` is due, nobody has joined the next round or waits to be read. -/
theorem of_due (h : Worker D (D + 1) joined p round answers pulls' del) :
    ¬joined ∧ answers = D ∧ round = D ∧ (p = .pull ∨ p = .pullWait) := by
  have h1 := h.pushed
  have h2 := h.answered
  have h3 := h.lead
  have h4 := h.phase
  by_cases hj : joined
  · rw [if_pos hj] at h1
    cases p <;> simp [Phase.ahead, Phase.held, Phase.InRound] at h1 h2 h4 <;> omega
  · rw [if_neg hj] at h1
    cases p <;> simp [Phase.ahead, Phase.held, Phase.InRound] at h1 h2 h4 ⊢ <;>
      first | omega | exact ⟨hj, by omega, by omega⟩

/-- A worker who pulls and lacks an answer lacks that of the last round issued. -/
theorem issued_eq (h : Worker D R joined (.pull : Phase α) round answers pulls' del)
    (hans : D = answers + 1) (hDR : D ≤ R) : R = D := by
  have hpushed := h.pushed
  have hanswered := h.answered
  simp only [Phase.ahead, Phase.held] at hpushed hanswered
  omega

/-! ### What a worker does -/

/-- What others push does not concern a worker, if it joins as often as rounds are issued. -/
theorem rejoin (h : Worker D R joined p round answers pulls' del) {R' : ℕ} {joined' : Prop}
    [Decidable joined']
    (heq : (R' + if joined' then 1 else 0) = R + if joined then 1 else 0) :
    Worker D R' joined' p round answers pulls' del := by
  refine ⟨h.phase, ?_, h.answered, h.pulled, h.delivered, h.lag, h.lead, h.fresh⟩
  rw [heq]
  exact h.pushed

/-- A push, which either joins the round or has it issued. -/
theorem push (h : Worker D R joined (.push : Phase α) round answers pulls' del) {R' : ℕ}
    {joined' : Prop} [Decidable joined']
    (heq : (R' + if joined' then 1 else 0) = (R + if joined then 1 else 0) + 1) :
    Worker D R' joined' (.pull : Phase α) round answers pulls' del := by
  refine ⟨trivial, ?_, h.answered, h.pulled, h.delivered, h.lag, h.lead, nofun⟩
  rw [heq, ← h.pushed]
  rfl

/-- A pull that has to wait, since its worker has all answers. -/
theorem pull (h : Worker D R joined (.pull : Phase α) round answers pulls' del)
    (hans : answers = D) :
    Worker D R joined (.pullWait : Phase α) round answers (pulls' + 1) del := by
  refine ⟨trivial, h.pushed, h.answered, ?_, h.delivered, h.lag, h.lead, fun _ => hans⟩
  rw [h.pulled]
  rfl

/-- A pull that is answered at once. -/
theorem answer (h : Worker D R joined (.pull : Phase α) round answers pulls' del)
    (hans : D = answers + 1) (r : Response α) :
    Worker D R joined (.answered r) round D (pulls' + 1) del := by
  refine ⟨trivial, h.pushed, ?_, ?_, h.delivered, Nat.le_succ D, Nat.le_refl D, nofun⟩
  · rw [hans, h.answered]
    rfl
  · rw [hans, h.pulled]
    rfl

/-- The delivery of an answer. -/
theorem deliver {r : Response α} (h : Worker D R joined (.answered r) round answers pulls' del) :
    Worker D R joined (.push : Phase α) (round + 1) answers pulls' (del + 1) := by
  refine ⟨trivial, h.pushed, h.answered, h.pulled, ?_, h.lag, h.lead, nofun⟩
  rw [h.delivered]

/-- A round is processed while a worker has not pulled. -/
theorem publish (h : Worker D R joined (.pull : Phase α) round answers pulls' del)
    (hans : answers = D) :
    Worker (D + 1) R joined (.pull : Phase α) round answers pulls' del := by
  refine ⟨h.phase, h.pushed, h.answered, h.pulled, h.delivered, ?_, ?_, nofun⟩
  · omega
  · omega

/-- A round is processed, and a worker who waits is answered. -/
theorem publish_answer (h : Worker D R joined (.pullWait : Phase α) round answers pulls' del)
    (r : Response α) :
    Worker (D + 1) R joined (.answered r) round (answers + 1) pulls' del := by
  have hans := h.fresh rfl
  refine ⟨trivial, h.pushed, ?_, h.pulled, h.delivered, ?_, ?_, nofun⟩
  · rw [h.answered]
    rfl
  · omega
  · omega

end Worker

namespace WindowInv

variable {numWorkers D : ℕ} {answers : ℕ → ℕ} {waits : ℕ → Prop} {w : Window}

/-- While the window is closed everyone has all answers. -/
theorem answers_of_closed (h : WindowInv numWorkers D answers waits w)
    (hclosed : w.isPushFinished ≠ some true) {v : ℕ} (hv : v < numWorkers) : D ≤ answers v := by
  by_contra hlt
  exact hclosed (h.opened.mpr ⟨v, hv, Nat.lt_of_not_le hlt⟩)

/-- A closed window has seen nobody. -/
theorem seen_of_closed (h : WindowInv numWorkers D answers waits w)
    (hclosed : w.isPushFinished ≠ some true) : w.seenSender = ∅ := by
  apply Finset.eq_empty_of_forall_notMem
  intro v hv
  exact hclosed ((h.seen v).mp hv).1

/-- Not all workers have been seen. -/
theorem card_lt (h : WindowInv numWorkers D answers waits w) (hN : 0 < numWorkers) :
    w.seenSender.card < numWorkers := by
  by_cases hopen : w.isPushFinished = some true
  · obtain ⟨v, hv, hlt⟩ := h.opened.mp hopen
    have hsub : w.seenSender ⊆ (Finset.range numWorkers).erase v := by
      intro u hu
      obtain ⟨-, hu1, hu2⟩ := (h.seen u).mp hu
      refine Finset.mem_erase.mpr ⟨?_, Finset.mem_range.mpr hu1⟩
      rintro rfl
      omega
    calc w.seenSender.card ≤ ((Finset.range numWorkers).erase v).card := Finset.card_le_card hsub
      _ = numWorkers - 1 := by
        rw [Finset.card_erase_of_mem (Finset.mem_range.mpr hv), Finset.card_range]
      _ < numWorkers := by omega
  · rw [h.seen_of_closed hopen]
    simpa using hN

/-- Entering a key changes nothing a window says. -/
theorem present (h : WindowInv numWorkers D answers waits w) :
    WindowInv numWorkers D answers waits w.present := by
  unfold Window.present
  split
  · rename_i hnone
    have hclosed : w.isPushFinished ≠ some true := by rw [hnone]; simp
    refine ⟨?_, ?_, rfl, h.waiting, h.nodup⟩
    · rw [← h.opened, hnone]
      simp [Window.close]
    · intro v
      simp [Window.close]
  · exact h

/-- Only which workers wait matters. -/
theorem congr_waits (h : WindowInv numWorkers D answers waits w) {waits' : ℕ → Prop}
    (hwaits : ∀ v < numWorkers, waits' v ↔ waits v) :
    WindowInv numWorkers D answers waits' w := by
  refine ⟨h.opened, h.seen, h.count, fun v => (h.waiting v).trans ?_, h.nodup⟩
  exact and_congr_right fun hv => (hwaits v hv).symm

/-- One more worker waits. -/
theorem wait (h : WindowInv numWorkers D answers waits w) {req : KVMeta}
    (hreq : req.sender < numWorkers) (hnot : ¬waits req.sender) {waits' : ℕ → Prop}
    (hwaits : ∀ v, waits' v ↔ v = req.sender ∨ waits v) :
    WindowInv numWorkers D answers waits' { w with qPullReqmeta := w.qPullReqmeta ++ [req] } := by
  refine ⟨h.opened, h.seen, h.count, fun v => ?_, ?_⟩
  · simp only [List.map_append, List.mem_append, List.map_singleton, List.mem_singleton,
      h.waiting, hwaits]
    constructor
    · rintro (⟨hv, hwait⟩ | rfl)
      · exact ⟨hv, .inr hwait⟩
      · exact ⟨hreq, .inl rfl⟩
    · rintro ⟨hv, rfl | hwait⟩
      · exact .inr rfl
      · exact .inl ⟨hv, hwait⟩
  · rw [List.map_append]
    refine List.nodup_append.mpr ⟨h.nodup, List.nodup_singleton _, ?_⟩
    rintro a ha b hb rfl
    obtain rfl := List.mem_singleton.mp hb
    exact hnot ((h.waiting _).mp ha).2

/-- Answering one more worker, which closes the window when it was the last. -/
theorem answer (h : WindowInv numWorkers D answers waits win) {w : ℕ} (hw : w < numWorkers)
    (hopen : win.isPushFinished = some true) (hnew : w ∉ win.seenSender)
    (hlag : ∀ v < numWorkers, answers v ≤ D) (hw1 : D = answers w + 1) (hwaits : ¬waits w) :
    WindowInv numWorkers D (Function.update answers w D) waits
      (if (win.count w).pullCnt = numWorkers then (win.count w).close else win.count w) := by
  have hcard : (insert w win.seenSender).card = win.pullCnt + 1 := by
    rw [Finset.card_insert_of_notMem hnew, h.count]
  have hseen : ∀ v, v ∈ insert w win.seenSender ↔
      v < numWorkers ∧ Function.update answers w D v = D := by
    intro v
    rw [Finset.mem_insert, h.seen]
    by_cases hvw : v = w
    · subst hvw; simp [hw]
    · simp [hvw, hopen]
  by_cases hfull : win.pullCnt + 1 = numWorkers
  · have hall : ∀ v < numWorkers, Function.update answers w D v = D := by
      intro v hv
      have hsub : insert w win.seenSender ⊆ Finset.range numWorkers := by
        intro u hu
        exact Finset.mem_range.mpr ((hseen u).mp hu).1
      have heq := Finset.eq_of_subset_of_card_le hsub (by rw [hcard, Finset.card_range, hfull])
      exact ((hseen v).mp (heq ▸ Finset.mem_range.mpr hv)).2
    rw [if_pos (show (win.count w).pullCnt = numWorkers from hfull)]
    refine ⟨?_, fun v => ?_, rfl, h.waiting, h.nodup⟩
    · simp only [Window.close, Option.some.injEq, Bool.false_eq_true, false_iff, not_exists,
        not_and]
      intro v hv
      rw [hall v hv]
      omega
    · simp [Window.close]
  · rw [if_neg (show ¬(win.count w).pullCnt = numWorkers from hfull)]
    refine ⟨?_, fun v => ?_, hcard.symm, h.waiting, h.nodup⟩
    · simp only [Window.count, hopen, true_iff]
      by_contra hall
      simp only [not_exists, not_and, not_lt] at hall
      have hsub : Finset.range numWorkers ⊆ insert w win.seenSender := by
        intro u hu
        have hu' := Finset.mem_range.mp hu
        refine (hseen u).mpr ⟨hu', Nat.le_antisymm ?_ (hall u hu')⟩
        by_cases huw : u = w
        · subst huw; simp
        · simpa [huw] using hlag u hu'
      have h1 := Finset.card_le_card hsub
      have h2 : (insert w win.seenSender).card ≤ numWorkers := by
        have hsub' : insert w win.seenSender ⊆ Finset.range numWorkers := by
          intro u hu
          exact Finset.mem_range.mpr ((hseen u).mp hu).1
        simpa using Finset.card_le_card hsub'
      rw [hcard] at h1 h2
      rw [Finset.card_range] at h1
      omega
    · rw [show (win.count w).seenSender = insert w win.seenSender from rfl, hseen]
      simp [Window.count, hopen]

/-- Answering everyone who waits when the next round is processed. -/
theorem drain (h : WindowInv numWorkers D answers waits win) (hN : 0 < numWorkers)
    (hclosed : win.isPushFinished ≠ some true) (hall : ∀ v < numWorkers, answers v = D) :
    ∃ win', Slot.drained numWorkers
        { win with isPushFinished := some true, qPullReqmeta := [] } win.qPullReqmeta =
          (win', win.qPullReqmeta) ∧
      WindowInv numWorkers (D + 1)
        (fun v => answers v + if v ∈ win.qPullReqmeta.map (·.sender) then 1 else 0)
        (fun _ => False) win' := by
  have hseen : win.seenSender = ∅ := h.seen_of_closed hclosed
  have hcnt : win.pullCnt = 0 := by rw [h.count, hseen]; rfl
  have hlt : ∀ v ∈ win.qPullReqmeta.map (·.sender), v < numWorkers :=
    fun v hv => ((h.waiting v).mp hv).1
  have hlen : win.qPullReqmeta.length ≤ numWorkers := by
    have hsub : (win.qPullReqmeta.map (·.sender)).toFinset ⊆ Finset.range numWorkers := by
      intro v hv
      exact Finset.mem_range.mpr (hlt v (List.mem_toFinset.mp hv))
    have := Finset.card_le_card hsub
    rwa [List.toFinset_card_of_nodup h.nodup, List.length_map, Finset.card_range] at this
  have heq := Slot.drained_eq win.qPullReqmeta
    { win with isPushFinished := some true, qPullReqmeta := [] } (by simpa [hcnt] using hN)
    (by simpa [hcnt] using hlen) h.nodup (by simp [hseen]) rfl
  refine ⟨_, heq, ?_⟩
  simp only [hcnt, Nat.zero_add, hseen]
  by_cases hfull : win.qPullReqmeta.length = numWorkers
  · rw [if_pos hfull]
    refine ⟨?_, fun v => by simp [Window.close], by simp [Window.close], fun v => by
      simp [Window.close], by simp [Window.close]⟩
    simp only [Window.close, Option.some.injEq, Bool.false_eq_true, false_iff, not_exists,
      not_and]
    intro v hv
    have hmem : v ∈ win.qPullReqmeta.map (·.sender) :=
      Joined.mem ⟨h.nodup, hlt⟩ (by simp [hfull]) hv
    rw [if_pos hmem, hall v hv]
    omega
  · rw [if_neg hfull]
    refine ⟨?_, fun v => ?_, ?_, fun v => by simp, by simp⟩
    · simp only [true_iff]
      by_contra hno
      simp only [not_exists, not_and, not_lt] at hno
      have hsub : Finset.range numWorkers ⊆ (win.qPullReqmeta.map (·.sender)).toFinset := by
        intro v hv
        have hv' := Finset.mem_range.mp hv
        have := hno v hv'
        rw [hall v hv'] at this
        by_contra hnot
        rw [if_neg (fun hm => hnot (List.mem_toFinset.mpr hm))] at this
        omega
      have := Finset.card_le_card hsub
      rw [List.toFinset_card_of_nodup h.nodup, List.length_map, Finset.card_range] at this
      omega
    · simp only [Finset.empty_union, List.mem_toFinset, true_and]
      constructor
      · intro hv
        rw [if_pos hv, hall v (hlt v hv)]
        exact ⟨hlt v hv, rfl⟩
      · rintro ⟨hv, heq'⟩
        by_contra hnot
        rw [if_neg hnot, hall v hv] at heq'
        omega
    · simp only [Finset.empty_union]
      rw [List.toFinset_card_of_nodup h.nodup, List.length_map]

end WindowInv

end DeepInc.Server
