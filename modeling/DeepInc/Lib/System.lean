/-
Systems that take one step at a time.

A step relation is indexed by the action that was taken.  `Reachable` is what runs
arrive at, `invariant` is the induction every safety result uses, and `simulate`
carries reachability along a map that turns each step into at most one step of
another system.  `Guarded` keeps the steps a condition admits, so that a result
about runs whose steps all meet a condition is a result about the guarded system.
`Runs` also says which actions a run took, and `run` executes a list of actions with a
partial step function.
-/
import Mathlib.Data.List.Induction

namespace Transition

variable {σ ι τ κ ε : Type}

/-- The states runs arrive at. -/
inductive Reachable (init : σ → Prop) (step : σ → ι → σ → Prop) : σ → Prop
  | start {s : σ} (h : init s) : Reachable init step s
  | next {s s' : σ} {a : ι} (h : Reachable init step s) (hstep : step s a s') :
      Reachable init step s'

/-- The steps a condition on the state before admits. -/
def Guarded (guard : σ → ι → Prop) (step : σ → ι → σ → Prop) : σ → ι → σ → Prop :=
  fun s a s' => guard s a ∧ step s a s'

namespace Reachable

variable {init : σ → Prop} {step : σ → ι → σ → Prop} {P : σ → Prop}

/-- What holds at the start and is kept by every step holds in every run. -/
theorem invariant (hinit : ∀ s, init s → P s)
    (hstep : ∀ s a s', Reachable init step s → P s → step s a s' → P s') {s : σ}
    (h : Reachable init step s) : P s := by
  induction h with
  | start h => exact hinit _ h
  | next hr hs ih => exact hstep _ _ _ hr ih hs

/-- A guarded run is a run. -/
theorem of_guarded {guard : σ → ι → Prop} {s : σ}
    (h : Reachable init (Guarded guard step) s) : Reachable init step s := by
  induction h with
  | start h => exact .start h
  | next _ hs ih => exact .next ih hs.2

/-- A map under which every step is a step of the other system, or nothing at all. -/
theorem simulate {init' : τ → Prop} {step' : τ → κ → τ → Prop} (f : σ → τ)
    (hinit : ∀ s, init s → init' (f s))
    (hstep : ∀ s a s', Reachable init step s → step s a s' →
      f s' = f s ∨ ∃ b, step' (f s) b (f s')) {s : σ}
    (h : Reachable init step s) : Reachable init' step' (f s) := by
  induction h with
  | start h => exact .start (hinit _ h)
  | next hr hs ih =>
      rcases hstep _ _ _ hr hs with heq | ⟨b, hb⟩
      · rw [heq]; exact ih
      · exact .next ih hb

end Reachable

/-! ### The actions a run took -/

/-- The states runs arrive at, with the actions they took. -/
inductive Runs (init : σ → Prop) (step : σ → ι → σ → Prop) : List ι → σ → Prop
  | start {s : σ} (h : init s) : Runs init step [] s
  | next {as : List ι} {s s' : σ} {a : ι} (h : Runs init step as s) (hstep : step s a s') :
      Runs init step (as ++ [a]) s'

namespace Runs

variable {init : σ → Prop} {step : σ → ι → σ → Prop} {as : List ι} {s : σ}

theorem reachable (h : Runs init step as s) : Reachable init step s := by
  induction h with
  | start h => exact .start h
  | next _ hs ih => exact .next ih hs

/-- What holds at the start and is kept by every step, of the state and the actions so far. -/
theorem invariant {P : List ι → σ → Prop} (hinit : ∀ s, init s → P [] s)
    (hstep : ∀ as s a s', P as s → step s a s' → P (as ++ [a]) s') (h : Runs init step as s) :
    P as s := by
  induction h with
  | start h => exact hinit _ h
  | next _ hs ih => exact hstep _ _ _ _ ih hs

/-- Where each of some actions can be taken, all of them can. -/
theorem exists_append (bs : List ι) (h : Runs init step as s) {P : σ → Prop}
    (hs : P s) (hstep : ∀ s, P s → ∀ b ∈ bs, ∃ s', step s b s' ∧ P s') :
    ∃ s', Runs init step (as ++ bs) s' ∧ P s' := by
  induction bs generalizing as s with
  | nil => exact ⟨s, by rwa [List.append_nil], hs⟩
  | cons b bs ih =>
      obtain ⟨s₁, hb, hs₁⟩ := hstep s hs b List.mem_cons_self
      obtain ⟨s', hruns, hs'⟩ := ih (h.next hb) hs₁ fun s hs c hc =>
        hstep s hs c (List.mem_cons_of_mem _ hc)
      exact ⟨s', by rwa [List.append_assoc] at hruns, hs'⟩

end Runs

/-! ### Running a list of actions -/

/-- Take the actions one after another, stopping at the first fault. -/
def run (step : σ → ι → Except ε σ) : σ → List ι → Except ε σ
  | s, [] => .ok s
  | s, a :: rest => (step s a).bind fun s' => run step s' rest

variable (step : σ → ι → Except ε σ)

@[simp] theorem run_nil (s : σ) : run step s [] = .ok s := rfl

theorem run_cons (s : σ) (a : ι) (rest : List ι) :
    run step s (a :: rest) = (step s a).bind fun s' => run step s' rest := rfl

/-- What a list of actions arrives at is reachable. -/
theorem reachable_of_run {init : σ → Prop} {s s' : σ} {as : List ι}
    (h : Reachable init (fun s a s' => step s a = .ok s') s) (hrun : run step s as = .ok s') :
    Reachable init (fun s a s' => step s a = .ok s') s' := by
  induction as generalizing s with
  | nil => cases hrun; exact h
  | cons a as ih =>
      rw [run_cons] at hrun
      cases hs : step s a with
      | error e => rw [hs] at hrun; cases hrun
      | ok s₁ => rw [hs] at hrun; exact ih (.next h hs) hrun

/-- What a list of moves of a partial function arrives at is reachable. -/
theorem reachable_of_foldlM {init : σ → Prop} {move : σ → ι → Option σ} (as : List ι)
    {s s' : σ} (h : Reachable init (fun s a s' => move s a = some s') s)
    (hrun : as.foldlM move s = some s') :
    Reachable init (fun s a s' => move s a = some s') s' := by
  induction as generalizing s with
  | nil =>
      obtain rfl := Option.some.inj hrun
      exact h
  | cons a as ih =>
      obtain ⟨s₁, hs, hrest⟩ := Option.bind_eq_some_iff.mp hrun
      exact ih (.next h hs) hrest

/-- A run whose steps are checked against a condition. -/
theorem reachable_of_guarded_run {init : σ → Prop} {guard : σ → ι → Prop}
    [∀ s a, Decidable (guard s a)] {e : ε} {s s' : σ} {as : List ι}
    (h : Reachable init (Guarded guard fun s a s' => step s a = .ok s') s)
    (hrun : run (fun s a => if guard s a then step s a else .error e) s as = .ok s') :
    Reachable init (Guarded guard fun s a s' => step s a = .ok s') s' := by
  induction as generalizing s with
  | nil =>
      cases hrun
      exact h
  | cons a as ih =>
      rw [run_cons] at hrun
      by_cases hguard : guard s a
      · rw [if_pos hguard] at hrun
        cases hs : step s a with
        | error e =>
            rw [hs] at hrun
            cases hrun
        | ok s₁ =>
            rw [hs] at hrun
            exact ih (.next h ⟨hguard, hs⟩) hrun
      · rw [if_neg hguard] at hrun
        cases hrun

/-! ### Records -/

/-- In a record kept newest first, `P` held of every entry and the record before it. -/
def Always (P : ε → List ε → Prop) (log : List ε) : Prop :=
  ∀ e past, (e :: past) <:+ log → P e past

variable {P : ε → List ε → Prop} {log : List ε}

theorem always_nil : Always P [] := by
  intro e past h
  simp at h

theorem always_cons {e : ε} : Always P (e :: log) ↔ P e log ∧ Always P log := by
  constructor
  · intro h
    exact ⟨h e log (List.suffix_refl _), fun e' past hp => h e' past (hp.trans (List.suffix_cons ..))⟩
  · rintro ⟨he, h⟩ e' past hp
    rcases List.suffix_cons_iff.mp hp with heq | hp
    · obtain ⟨rfl, rfl⟩ := List.cons.inj heq
      exact he
    · exact h e' past hp

/-- Several entries at once, oldest first. -/
theorem Always.append_map {β : Type} (f : β → ε) (l : List β) (h : Always P log)
    (hl : ∀ l₁ a l₂, l = l₁ ++ a :: l₂ → P (f a) ((l₁.map f).reverse ++ log)) :
    Always P ((l.map f).reverse ++ log) := by
  induction l using List.reverseRecOn with
  | nil => exact h
  | append_singleton l a ih =>
      rw [List.map_append, List.reverse_append, List.map_singleton, List.reverse_singleton]
      refine always_cons.mpr ⟨hl l a [] rfl, ih fun l₁ b l₂ heq => ?_⟩
      exact hl l₁ b (l₂ ++ [a]) (by rw [heq]; simp)

/-- What holds throughout a part of the record, read in the whole record. -/
theorem Always.of_filter {q : ε → Bool} (h : Always P (log.filter q)) {e : ε} {past : List ε}
    (hp : (e :: past) <:+ log) (he : q e = true) : P e (past.filter q) := by
  refine h e (past.filter q) ?_
  have := hp.filter q
  rwa [List.filter_cons_of_pos he] at this

end Transition
