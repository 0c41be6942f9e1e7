/-
What the steps of a slot do to it.

A slot is the server as one key sees it: the stored buffer, the requests that wait, the window
of pulls, the work that is left, and the phases of the workers as far as the key goes.  Its
steps are stated in `Server/Slot.lean` as they come from the handler and the engine; here is
what they leave behind, so that the invariants of the later files are shown from equations and
not from loops.

The events a step shows are folded into the slot by `serve`, which touches nothing but phases
and the record.  A request shows one event or none.  The two families that come as lists are the
push responses of a complete initialisation and the pull responses of an `ALL_RECV`; for both,
the phases afterwards are given outright, for every worker.

The record counts what happened: rounds issued and published, pulls, answers and deliveries.  An
event counts for one of these or for none.
-/
import DeepInc.Server.Slot
import Mathlib.Data.Finset.Card

namespace DeepInc.Server

variable {α κ : Type} {cfg : Config} {codec : Codec α κ}

/-! ### Phases -/

namespace Phase

/-- The worker has pushed in the round after its completed ones. -/
def ahead : Phase α → ℕ
  | pull | pullWait | answered _ => 1
  | _ => 0

/-- The worker has an answer that was not delivered yet. -/
def held : Phase α → ℕ
  | answered _ => 1
  | _ => 0

/-- The worker waits for an answer. -/
def waits : Phase α → ℕ
  | pullWait => 1
  | _ => 0

/-- The worker is through with the initialisation, and between requests of its rounds. -/
def InRound : Phase α → Prop
  | push | pull | pullWait | answered _ => True
  | _ => False

end Phase

/-! ### The record -/

section Record

variable {key : Key} {w : ℕ} {log : List (Event α)}

@[simp] theorem issuedRounds_nil : issuedRounds (α := α) key [] = 0 := rfl

@[simp] theorem publishedRounds_nil : publishedRounds (α := α) key [] = 0 := rfl

@[simp] theorem pulls_nil : pulls (α := α) w key [] = 0 := rfl

@[simp] theorem responses_nil : responses (α := α) w key [] = 0 := rfl

@[simp] theorem deliveries_nil : deliveries (α := α) w key [] = 0 := rfl

@[simp] theorem issuedRounds_cons (e : Event α) :
    issuedRounds key (e :: log) = issuedRounds key log + if e.isIssue key then 1 else 0 :=
  List.countP_cons ..

@[simp] theorem publishedRounds_cons (e : Event α) :
    publishedRounds key (e :: log) = publishedRounds key log + if e.isResult key then 1 else 0 :=
  List.countP_cons ..

@[simp] theorem pulls_cons (e : Event α) :
    pulls w key (e :: log) = pulls w key log + if e.isPull w key then 1 else 0 :=
  List.countP_cons ..

@[simp] theorem responses_cons (e : Event α) :
    responses w key (e :: log) = responses w key log + if e.isResponse w key then 1 else 0 :=
  List.countP_cons ..

@[simp] theorem deliveries_cons (e : Event α) :
    deliveries w key (e :: log) = deliveries w key log + if e.isDelivery w key then 1 else 0 :=
  List.countP_cons ..

/-- Events that count for nothing in front of a record. -/
theorem issuedRounds_append {es : List (Event α)} (h : ∀ e ∈ es, e.isIssue key = false) :
    issuedRounds key (es ++ log) = issuedRounds key log := by
  rw [issuedRounds, List.countP_append, List.countP_eq_zero.mpr (by simpa using h), Nat.zero_add]
  rfl

theorem publishedRounds_append {es : List (Event α)} (h : ∀ e ∈ es, e.isResult key = false) :
    publishedRounds key (es ++ log) = publishedRounds key log := by
  rw [publishedRounds, List.countP_append, List.countP_eq_zero.mpr (by simpa using h),
    Nat.zero_add]
  rfl

theorem pulls_append {es : List (Event α)} (h : ∀ e ∈ es, e.isPull w key = false) :
    pulls w key (es ++ log) = pulls w key log := by
  rw [pulls, List.countP_append, List.countP_eq_zero.mpr (by simpa using h), Nat.zero_add]
  rfl

theorem responses_append {es : List (Event α)} (h : ∀ e ∈ es, e.isResponse w key = false) :
    responses w key (es ++ log) = responses w key log := by
  rw [responses, List.countP_append, List.countP_eq_zero.mpr (by simpa using h), Nat.zero_add]
  rfl

theorem deliveries_append {es : List (Event α)} (h : ∀ e ∈ es, e.isDelivery w key = false) :
    deliveries w key (es ++ log) = deliveries w key log := by
  rw [deliveries, List.countP_append, List.countP_eq_zero.mpr (by simpa using h), Nat.zero_add]
  rfl

end Record

/-! ### Folding events in -/

namespace Slot

section SetPhase

variable (v : Slot α κ) (w : ℕ) (p : Phase α)

@[simp] theorem setPhase_stored : (v.setPhase w p).stored = v.stored := rfl

@[simp] theorem setPhase_request : (v.setPhase w p).request = v.request := rfl

@[simp] theorem setPhase_compressor : (v.setPhase w p).compressor = v.compressor := rfl

@[simp] theorem setPhase_window : (v.setPhase w p).window = v.window := rfl

@[simp] theorem setPhase_log : (v.setPhase w p).log = v.log := rfl

@[simp] theorem setPhase_self : (v.setPhase w p).phase w = p := by simp [setPhase]

@[simp] theorem setPhase_ne {u : ℕ} (h : u ≠ w) : (v.setPhase w p).phase u = v.phase u := by
  simp [setPhase, h]

end SetPhase

variable (job : Job α κ cfg codec) (key : Key)

@[simp] theorem observe_log (v : Slot α κ) (e : Event α) :
    (observe job key v e).log = e :: v.log := by
  cases e <;> rfl

/-- Workers who get a push response move on, the others stay. -/
theorem serve_pushResponses (l : List ℕ) (hl : l.Nodup) (v : Slot α κ) :
    serve job key (v, l.map (.pushResponse key)) =
      { v with
        phase := fun w => if w ∈ l then job.acked key (v.phase w) else v.phase w
        log := (l.map (Event.pushResponse key)).reverse ++ v.log } := by
  show (l.map (Event.pushResponse key)).foldl (observe job key) v = _
  induction l generalizing v with
  | nil => simp
  | cons a l ih =>
      obtain ⟨ha, hl⟩ := List.nodup_cons.mp hl
      rw [List.map_cons, List.foldl_cons, ih hl]
      have hphase : ∀ w, (if w ∈ l then job.acked key ((observe job key v (.pushResponse key a)).phase w)
          else (observe job key v (.pushResponse key a)).phase w) =
          if w ∈ a :: l then job.acked key (v.phase w) else v.phase w := by
        intro w
        by_cases hwa : w = a
        · subst hwa
          simp [observe, setPhase, ha]
        · simp [observe, setPhase, hwa]
      simp only [hphase]
      simp [observe, setPhase]

/-- A worker who is not the last one joins those who wait. -/
theorem serve_collect_join {numWorkers : ℕ} {v : Slot α κ} {w : ℕ}
    (h : v.request.length + 1 < numWorkers) :
    serve job key (v.collect numWorkers key w) = { v with request := v.request ++ [w] } := by
  unfold collect
  rw [if_pos (by simpa using h)]
  rfl

/-- The last one has everybody let go. -/
theorem serve_collect_full {numWorkers : ℕ} {v : Slot α κ} {w : ℕ}
    (h : numWorkers ≤ v.request.length + 1) (hl : (v.request ++ [w]).Nodup) :
    serve job key (v.collect numWorkers key w) = { v with
      request := []
      phase := fun u => if u ∈ v.request ++ [w] then job.acked key (v.phase u) else v.phase u
      log := ((v.request ++ [w]).map (Event.pushResponse key)).reverse ++ v.log } := by
  unfold collect
  rw [if_neg (by simpa using h), serve_pushResponses job key _ hl]

/-- Workers who get a pull response hold it, the others stay. -/
theorem serve_pullResponses (f : ℕ → Response α) (hf : ∀ w, (f w).sender = w)
    (l : List KVMeta) (v : Slot α κ) :
    serve job key (v, l.map fun req => .pullResponse (f req.sender)) =
      { v with
        phase := fun w => if w ∈ l.map (·.sender) then .answered (f w) else v.phase w
        log := (l.map fun req => Event.pullResponse (f req.sender)).reverse ++ v.log } := by
  show (l.map fun req => Event.pullResponse (f req.sender)).foldl (observe job key) v = _
  induction l generalizing v with
  | nil => simp
  | cons a l ih =>
      rw [List.map_cons, List.foldl_cons, ih]
      have hphase : ∀ w, (if w ∈ l.map (·.sender) then .answered (f w)
          else (observe job key v (.pullResponse (f a.sender))).phase w) =
          if w ∈ (a :: l).map (·.sender) then .answered (f w) else v.phase w := by
        intro w
        by_cases hwa : w = a.sender
        · subst hwa
          simp [observe, setPhase, hf]
        · simp [observe, setPhase, hf, hwa]
      simp only [hphase]
      simp [observe, setPhase]

/-! ### Answering the pulls that wait

`drained` goes through the waiting pulls one by one and counts each in the window.  Since no
worker waits twice and none was counted before, all of them are answered, and the count grows by
as many.  The window is closed inside the loop, when the last worker of all is counted.
-/

/--
An `ALL_RECV` answers every waiting pull, provided no worker waits twice or was
answered in this window; the window closes if these are the last workers.
-/
theorem drained_eq {numWorkers : ℕ} (q : List KVMeta) (w : Window)
    (hcnt : w.pullCnt < numWorkers) (hle : w.pullCnt + q.length ≤ numWorkers)
    (hnodup : (q.map (·.sender)).Nodup) (hnew : ∀ req ∈ q, req.sender ∉ w.seenSender)
    (hq : w.qPullReqmeta = []) :
    drained numWorkers w q =
      (if w.pullCnt + q.length = numWorkers then w.close
        else { w with
          pullCnt := w.pullCnt + q.length
          seenSender := w.seenSender ∪ (q.map (·.sender)).toFinset }, q) := by
  induction q generalizing w with
  | nil =>
      have hopen : w.pullCnt + ([] : List KVMeta).length ≠ numWorkers := Nat.ne_of_lt hcnt
      rw [if_neg hopen]
      simp only [drained, List.map_nil, List.toFinset_nil, Finset.union_empty, List.length_nil,
        Nat.add_zero]
  | cons req rest ih =>
      rw [List.map_cons] at hnodup
      obtain ⟨hreq, hrest⟩ := List.nodup_cons.mp hnodup
      have hfirst : req.sender ∉ w.seenSender := hnew req (by simp)
      unfold drained
      simp only [hfirst, not_false_eq_true, if_true]
      by_cases hfull : (w.count req.sender).pullCnt = numWorkers
      · have hlen : rest = [] := by
          have : w.pullCnt + (rest.length + 1) ≤ numWorkers := by simpa using hle
          have h1 : w.pullCnt + 1 = numWorkers := hfull
          exact List.eq_nil_of_length_eq_zero (by omega)
        subst hlen
        have h1 : w.pullCnt + 1 = numWorkers := hfull
        simp [h1, Window.close, Window.count, hq]
      · have hlt : w.pullCnt + 1 < numWorkers := by
          have : w.pullCnt + 1 ≠ numWorkers := hfull
          omega
        have hrec := ih (w.count req.sender) hlt (by simp [Window.count] at hle ⊢; omega) hrest
          (fun r hr => by
            have hne : r.sender ≠ req.sender := fun h => hreq (h ▸ List.mem_map_of_mem hr)
            simpa [Window.count, hne] using hnew r (by simp [hr])) hq
        have hsum : (w.count req.sender).pullCnt + rest.length
            = w.pullCnt + (req :: rest).length := by
          simp only [Window.count, List.length_cons]
          omega
        have hseen : (w.count req.sender).seenSender ∪ (rest.map (·.sender)).toFinset
            = w.seenSender ∪ ((req :: rest).map (·.sender)).toFinset := by
          ext x
          simp only [Window.count, List.map_cons, List.toFinset_cons, Finset.mem_union,
            Finset.mem_insert]
          tauto
        simp only [hfull, if_false, hrec, hsum, hseen]
        rfl

end Slot

end DeepInc.Server
