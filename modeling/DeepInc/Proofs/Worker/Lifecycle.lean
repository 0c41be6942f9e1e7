/-
Which key a tensor has after a resume.

A worker can be suspended and resumed, with other devices and other workers around it.  A
suspension drops all contexts and sets the counter of the declarations back; a resume declares
all names again.  The keys of the tensors must not change by this, since the servers know them.

The names are kept in the order of their first declaration.  At any time between two suspensions
the contexts are those of these names, numbered from 0 on in that order, and a declaration of a
new name goes to the end of both.  A resume starts the numbering again on the same names, so it
gives each its number back.

The counter has 32 bits.  After `2 ^ 32` names it begins again, with or without a suspension, so
that a name keeps its number in any case, but two names may have the same one.
-/
import DeepInc.Proofs.Worker.Keys
import DeepInc.Worker.Lifecycle

namespace DeepInc.Worker

open Transition

variable {K : Type} {cfg : Config}

/-! ### Numbering a list of names -/

/-- The numbers of the names, in their order. -/
def numbered (names : List String) : List (String × ℕ) :=
  names.zipIdx.map fun p => (p.1, uint32 p.2)

theorem numbered_append (names : List String) (name : String) :
    numbered (names ++ [name]) = numbered names ++ [(name, uint32 names.length)] := by
  unfold numbered
  rw [List.zipIdx_append, List.map_append, List.zipIdx_singleton, Nat.zero_add]
  rfl

theorem map_fst_numbered (names : List String) : (numbered names).map (·.1) = names := by
  unfold numbered
  rw [List.map_map]
  exact List.zipIdx_map_fst 0 names

theorem map_snd_numbered (names : List String) :
    (numbered names).map (·.2) = (List.range names.length).map uint32 := by
  unfold numbered
  rw [List.map_map, List.range_eq_range', ← List.zipIdx_map_snd 0 names, List.map_map]
  rfl

/-- A counter of 32 bits numbers this many names by their positions. -/
theorem map_uint32_range (n : ℕ) : (List.range n).map uint32 = List.range n ↔ n ≤ 2 ^ 32 := by
  constructor
  · intro h
    by_contra hlt
    have hmem : 2 ^ 32 ∈ (List.range n).map uint32 := by
      rw [h]
      exact List.mem_range.mpr (Nat.lt_of_not_le hlt)
    obtain ⟨i, _, hi⟩ := List.mem_map.mp hmem
    unfold uint32 at hi
    omega
  · intro hle
    refine (List.map_congr_left fun i hi => ?_).trans (List.map_id _)
    exact Nat.mod_eq_of_lt (Nat.lt_of_lt_of_le (List.mem_range.mp hi) hle)

/-- Up to then the numbers are the positions. -/
theorem numbered_eq_zipIdx (names : List String) :
    numbered names = names.zipIdx ↔ names.length ≤ 2 ^ 32 := by
  rw [← map_uint32_range, ← map_snd_numbered]
  constructor
  · intro h
    rw [h, List.zipIdx_map_snd, List.range_eq_range']
  · intro h
    rw [List.zip_of_prod (map_fst_numbered names) h, List.range_eq_range', List.zipIdx_eq_zip_range']

theorem nodup_map_uint32_range (n : ℕ) : ((List.range n).map uint32).Nodup ↔ n ≤ 2 ^ 32 := by
  constructor
  · intro h
    by_contra hlt
    have hzero := List.inj_on_of_nodup_map h (x := 0) (y := 2 ^ 32)
      (List.mem_range.mpr (by omega)) (List.mem_range.mpr (by omega)) rfl
    exact absurd hzero (by decide)
  · intro hle
    rw [(map_uint32_range n).mpr hle]
    exact List.nodup_range

/-! ### The contexts -/

namespace Global

/-- The contexts are those of some names, numbered in their order. -/
structure Numbered (names : List String) (g : Global K) : Prop where
  keys : g.declaredKeys = numbered names
  nextKey : g.nextKey = uint32 names.length

variable {g : Global K} {names : List String}

theorem numbered_init : (init : Global K).Numbered [] := ⟨rfl, rfl⟩

theorem numbered_shutdown (g : Global K) : g.shutdown.Numbered [] := ⟨rfl, rfl⟩

theorem Numbered.tensorNames (h : g.Numbered names) : g.contexts.map (·.tensorName) = names := by
  have hnames := congrArg (List.map (·.1)) h.keys
  rw [map_fst_numbered] at hnames
  rw [← hnames, declaredKeys, List.map_map]
  rfl

/-- A name that has a context is not declared again. -/
theorem Numbered.declared (h : g.Numbered names) {name : String} (hmem : name ∈ names) :
    (g.isTensorDeclared name).2 = g := by
  have hfound : (g.find name).isSome := by
    by_contra hnone
    exact find_eq_none hnone (h.tensorNames ▸ hmem)
  unfold Global.isTensorDeclared
  rw [if_pos hfound]

/-- A name without a context takes the next number. -/
theorem Numbered.declare (h : g.Numbered names) {name : String} (hmem : name ∉ names) :
    (g.isTensorDeclared name).2.Numbered (names ++ [name]) ∧
      (g.isTensorDeclared name).2.declaredTensors =
        if name ∈ g.declaredTensors then g.declaredTensors else g.declaredTensors ++ [name] := by
  have hfound : ¬(g.find name).isSome := by
    intro hsome
    obtain ⟨c, hfind⟩ := Option.isSome_iff_exists.mp hsome
    obtain ⟨hc, rfl⟩ := find_spec hfind
    exact hmem (h.tensorNames ▸ List.mem_map_of_mem hc)
  unfold Global.isTensorDeclared
  rw [if_neg hfound]
  refine ⟨⟨?_, ?_⟩, rfl⟩
  · rw [numbered_append, ← h.keys, ← h.nextKey]
    exact List.map_append
  · simp only [h.nextKey, List.length_append, List.length_singleton]
    unfold uint32
    omega

/-- The names that have been declared are declared again one after another. -/
theorem Numbered.declareAll (rest : List String) (h : g.Numbered names)
    (hnodup : (names ++ rest).Nodup) (hsub : rest ⊆ g.declaredTensors) :
    (rest.foldl (fun g name => (g.isTensorDeclared name).2) g).Numbered (names ++ rest) ∧
      (rest.foldl (fun g name => (g.isTensorDeclared name).2) g).declaredTensors =
        g.declaredTensors := by
  induction rest generalizing g names with
  | nil => exact ⟨by rwa [List.append_nil], rfl⟩
  | cons name rest ih =>
      have hfresh : name ∉ names := fun hmem =>
        (List.nodup_append.mp hnodup).2.2 name hmem name List.mem_cons_self rfl
      obtain ⟨hnum, hdecl⟩ := h.declare hfresh
      rw [if_pos (hsub List.mem_cons_self)] at hdecl
      rw [List.append_cons] at hnodup ⊢
      obtain ⟨hnum', hdecl'⟩ := ih hnum hnodup fun x hx => by
        rw [hdecl]
        exact hsub (List.mem_cons_of_mem _ hx)
      exact ⟨hnum', hdecl'.trans hdecl⟩

/-- All declared names get their numbers back. -/
theorem Numbered.reDeclareTensor (h : g.Numbered []) (hnodup : g.declaredTensors.Nodup) :
    g.reDeclareTensor.Numbered g.declaredTensors ∧
      g.reDeclareTensor.declaredTensors = g.declaredTensors :=
  h.declareAll g.declaredTensors hnodup (List.Subset.refl _)

/-- A context is written that keeps its name and its number. -/
theorem Numbered.update (h : g.Numbered names) (hnodup : names.Nodup) {c c' : Context K}
    (hc : c ∈ g.contexts) (hname : c'.tensorName = c.tensorName)
    (hkey : c'.declaredKey = c.declaredKey) : (g.update c').Numbered names := by
  refine ⟨?_, h.nextKey⟩
  rw [← h.keys]
  simp only [declaredKeys, Global.update, List.map_map]
  refine List.map_congr_left fun c₁ hc₁ => ?_
  simp only [Function.comp]
  split
  · rename_i heq
    have hsame : c₁ = c :=
      List.inj_on_of_nodup_map (by rw [h.tensorNames]; exact hnodup) hc₁ hc (heq.trans hname)
    rw [hname, hkey, hsame]
  · rfl

end Global

/-- `InitTensor` leaves the name and the number of a tensor alone. -/
theorem initTensor_keeps {context c : Context K} {size : ℕ} {dtype : DataType}
    (h : initTensor cfg context size dtype = .ok c) :
    c.tensorName = context.tensorName ∧ c.declaredKey = context.declaredKey := by
  by_cases hinit : context.initialized = true
  · unfold initTensor at h
    rw [if_pos hinit] at h
    cases h
    exact ⟨rfl, rfl⟩
  · obtain ⟨_, _, _, _, _, _, _, _, _, _, _, rfl⟩ :=
      initTensor_spec (Bool.eq_false_of_not_eq_true hinit) h
    exact ⟨rfl, rfl⟩

/-- A call that is not a declaration leaves the names and their numbers alone. -/
theorem Global.Numbered.step {g g' : Global K} {names : List String} {call : Global.Call}
    (h : g.Numbered names) (hnodup : names.Nodup) (hcall : ∀ name, call ≠ .isTensorDeclared name)
    (hstep : g.step cfg call = .ok g') :
    g'.Numbered names ∧ g'.declaredTensors = g.declaredTensors := by
  cases Global.step_cases hstep with
  | isTensorDeclared name => exact absurd rfl (hcall name)
  | initTensor name size dtype context context' hfind hinit =>
      obtain ⟨hname, hkey⟩ := initTensor_keeps hinit
      exact ⟨h.update hnodup (find_spec hfind).1 hname hkey, rfl⟩
  | registerCompressor name kwargs context hfind =>
      exact ⟨h.update hnodup (find_spec hfind).1 rfl rfl, rfl⟩

/-! ### Suspending and resuming

While the worker is suspended no call for a tensor is admitted.  `firstDeclared` is what the
order of declarations comes to, read off the calls.
-/

namespace Lifecycle

/-- A run of the worker: what is called, with nothing for a tensor while it is suspended. -/
abbrev Run (cfg : Config) : List Call → Lifecycle K → Prop :=
  Runs (· = init) (Guarded admits fun s c s' => s.call cfg c = .ok s')

theorem Run.call {calls : List Call} {s s' : Lifecycle K} (h : Run cfg calls s) (c : Call)
    (hadmits : s.admits c) (hcall : s.call cfg c = .ok s') : Run cfg (calls ++ [c]) s' :=
  .next h ⟨hadmits, hcall⟩

/-- A declaration comes last unless the name is there. -/
theorem firstDeclared_declare (calls : List Call) (name : String) :
    firstDeclared (calls ++ [.tensor (.isTensorDeclared name)]) =
      if name ∈ firstDeclared calls then firstDeclared calls else firstDeclared calls ++ [name] := by
  have hlast : declarations (calls ++ [.tensor (.isTensorDeclared name)]) =
      declarations calls ++ [name] := List.filterMap_append
  unfold firstDeclared
  rw [hlast, List.eraseDups_append]
  simp only [List.mem_eraseDups]
  split
  · rename_i hmem
    simp [List.removeAll, hmem]
  · rename_i hmem
    simp [List.removeAll, hmem, List.eraseDups_cons]

/-- Any other call declares nothing. -/
theorem firstDeclared_other (calls : List Call) {c : Call}
    (hc : ∀ name, c ≠ .tensor (.isTensorDeclared name)) :
    firstDeclared (calls ++ [c]) = firstDeclared calls := by
  have hlast : declarations [c] = [] := by
    unfold declarations
    refine List.filterMap_eq_nil_iff.mpr fun c' hc' => ?_
    obtain rfl := List.mem_singleton.mp hc'
    split
    · rename_i name
      exact absurd rfl (hc name)
    · rfl
  unfold firstDeclared
  rw [show declarations (calls ++ [c]) = declarations calls ++ declarations [c] from
    List.filterMap_append, hlast, List.append_nil]

theorem nodup_firstDeclared (calls : List Call) : (firstDeclared calls).Nodup := by
  induction calls using List.reverseRecOn with
  | nil => exact List.nodup_nil
  | append_singleton calls c ih =>
      by_cases hc : ∃ name, c = .tensor (.isTensorDeclared name)
      · obtain ⟨name, rfl⟩ := hc
        rw [firstDeclared_declare]
        split
        · exact ih
        · rename_i hmem
          exact List.nodup_append'.mpr ⟨ih, List.nodup_singleton _, by simpa using hmem⟩
      · rw [firstDeclared_other calls fun name h => hc ⟨name, h⟩]
        exact ih

/-- What every run keeps: the names there are, and the contexts they have. -/
structure Inv (calls : List Call) (s : Lifecycle K) : Prop where
  names : s.global.declaredTensors = firstDeclared calls
  numbered : s.global.Numbered (if s.initialized then firstDeclared calls else [])

/-- A call for a tensor keeps it. -/
theorem Inv.tensor {calls : List Call} {s s' : Lifecycle K} {c : Global.Call} (h : Inv calls s)
    (hinit : s.initialized = true) (hcall : s.call cfg (.tensor c) = .ok s') :
    Inv (calls ++ [.tensor c]) s' := by
  obtain ⟨g, hstep, rfl⟩ := Outcome.map_eq_ok hcall
  have hnum := h.numbered
  rw [if_pos hinit] at hnum
  by_cases hdecl : ∃ name, c = .isTensorDeclared name
  · obtain ⟨name, rfl⟩ := hdecl
    cases hstep
    refine ⟨?_, ?_⟩ <;> simp only [hinit, if_true, firstDeclared_declare]
    · by_cases hmem : name ∈ firstDeclared calls
      · rw [hnum.declared hmem, if_pos hmem]
        exact h.names
      · rw [(hnum.declare hmem).2, h.names]
    · by_cases hmem : name ∈ firstDeclared calls
      · rw [hnum.declared hmem, if_pos hmem]
        exact hnum
      · rw [if_neg hmem]
        exact (hnum.declare hmem).1
  · have hother : ∀ name, c ≠ .isTensorDeclared name := fun name h => hdecl ⟨name, h⟩
    obtain ⟨hnum', hnames⟩ := hnum.step (nodup_firstDeclared calls) hother hstep
    refine ⟨?_, ?_⟩ <;> simp only [hinit, if_true,
      firstDeclared_other calls fun name h => hother name (Call.tensor.inj h)]
    · exact hnames.trans h.names
    · exact hnum'

/-- Every call keeps it. -/
theorem Inv.call {calls : List Call} {s s' : Lifecycle K} {c : Call} (h : Inv calls s)
    (hadmits : s.admits c) (hcall : s.call cfg c = .ok s') : Inv (calls ++ [c]) s' := by
  cases c with
  | tensor c => exact h.tensor hadmits hcall
  | suspend =>
      cases hcall
      refine ⟨?_, Global.numbered_shutdown _⟩
      rw [firstDeclared_other _ fun _ => by simp]
      exact h.names
  | resume =>
      cases hcall
      have hnum := h.numbered
      rw [if_neg (by rw [hadmits]; simp)] at hnum
      obtain ⟨hnum', hnames⟩ :=
        hnum.reDeclareTensor (by rw [h.names]; exact nodup_firstDeclared calls)
      refine ⟨?_, ?_⟩ <;> rw [firstDeclared_other _ fun _ => by simp]
      · exact hnames.trans h.names
      · rw [← h.names]
        exact hnum'

theorem inv_of_run {calls : List Call} {s : Lifecycle K} (h : Run cfg calls s) : Inv calls s := by
  refine Runs.invariant ?_ (fun calls s c s' hinv hstep => hinv.call hstep.1 hstep.2) h
  rintro s rfl
  exact ⟨rfl, Global.numbered_init⟩

/-- Outside a suspension every name has the number of its first declaration. -/
theorem declaredKeys_eq {calls : List Call} {s : Lifecycle K} (h : Run cfg calls s)
    (hinit : s.initialized = true) : s.global.declaredKeys = numbered (firstDeclared calls) := by
  have hnum := (inv_of_run h).numbered
  rw [if_pos hinit] at hnum
  exact hnum.keys

/-- A suspend and its resume give the same numbers again. -/
theorem declaredKeys_suspend_resume {calls : List Call} {s : Lifecycle K} (h : Run cfg calls s)
    (hinit : s.initialized = true) :
    s.suspend.resume.global.declaredKeys = s.global.declaredKeys := by
  have hrun := (Run.call h .suspend hinit rfl).call .resume rfl rfl
  rw [declaredKeys_eq hrun rfl, declaredKeys_eq h hinit, firstDeclared_other _ fun _ => by simp,
    firstDeclared_other _ fun _ => by simp]

/--
**Every name keeps the number of its first declaration**, over any number of suspensions.  The
counter has 32 bits, so the numbers are the positions for as many names as it can count.
-/
theorem declaredKeys_of_run {calls : List Call} {s : Lifecycle K} (h : Run cfg calls s)
    (hinit : s.initialized = true) :
    s.global.declaredKeys = numbered (firstDeclared calls) ∧
      s.suspend.resume.global.declaredKeys = s.global.declaredKeys ∧
      (s.global.declaredKeys = (firstDeclared calls).zipIdx ↔
        (firstDeclared calls).length ≤ 2 ^ 32) ∧
      ((s.global.declaredKeys.map (·.2)).Nodup ↔ (firstDeclared calls).length ≤ 2 ^ 32) := by
  refine ⟨declaredKeys_eq h hinit, declaredKeys_suspend_resume h hinit, ?_, ?_⟩
  · rw [declaredKeys_eq h hinit, numbered_eq_zipIdx]
  · rw [declaredKeys_eq h hinit, map_snd_numbered, nodup_map_uint32_range]

/-- A suspension after two declarations, and a third declaration after it. -/
theorem declaredKeys_of_run_three :
    let cfg : Config := ⟨4096, 65536, false, true⟩
    let calls : List Call := [.tensor (.isTensorDeclared "a"), .tensor (.isTensorDeclared "b"),
      .suspend, .resume, .tensor (.isTensorDeclared "c")]
    ∃ s : Lifecycle ℚ, Run cfg calls s ∧ s.initialized = true ∧
      s.global.declaredKeys = numbered (firstDeclared calls) := by
  intro cfg calls
  have hstart : Run cfg [] (init : Lifecycle ℚ) := .start rfl
  have h := ((((hstart.call (.tensor (.isTensorDeclared "a")) rfl rfl).call
    (.tensor (.isTensorDeclared "b")) rfl rfl).call .suspend rfl rfl).call .resume rfl rfl).call
    (.tensor (.isTensorDeclared "c")) rfl rfl
  exact ⟨_, h, rfl, (declaredKeys_of_run h rfl).1⟩

/-- Any names can be declared. -/
theorem exists_run_declarations (cfg : Config) (names : List String) :
    ∃ s : Lifecycle K, Run cfg (names.map fun name => .tensor (.isTensorDeclared name)) s ∧
      s.initialized = true := by
  have hstart : Run cfg [] (init : Lifecycle K) := .start rfl
  refine hstart.exists_append _ (P := fun s => s.initialized = true) rfl fun s hs c hc => ?_
  obtain ⟨name, _, rfl⟩ := List.mem_map.mp hc
  exact ⟨_, ⟨hs, rfl⟩, hs⟩

theorem firstDeclared_declarations (names : List String) (hnodup : names.Nodup) :
    firstDeclared (names.map fun name => .tensor (.isTensorDeclared name)) = names := by
  induction names using List.reverseRecOn with
  | nil => rfl
  | append_singleton names name ih =>
      obtain ⟨hnodup, _, hdisj⟩ := List.nodup_append'.mp hnodup
      rw [List.map_append, List.map_singleton, firstDeclared_declare, ih hnodup, if_neg]
      exact fun hmem => hdisj hmem (List.mem_singleton_self name)

/-- Names of different lengths. -/
def manyNames (n : ℕ) : List String := (List.range n).map fun i => String.ofList (List.replicate i 'a')

theorem nodup_manyNames (n : ℕ) : (manyNames n).Nodup := by
  refine List.nodup_range.map fun i j h => ?_
  simpa using congrArg String.length h

theorem length_manyNames (n : ℕ) : (manyNames n).length = n := by
  simp [manyNames]

/-- After `2 ^ 32` declarations the next tensor has the number of the first one. -/
theorem counter_wraps : ¬∀ (cfg : Config) (calls : List Call) (s : Lifecycle ℚ), Run cfg calls s →
    s.initialized = true → s.global.declaredKeys = (firstDeclared calls).zipIdx := by
  intro h
  obtain ⟨s, hrun, hinit⟩ := exists_run_declarations (K := ℚ) ⟨4096, 65536, false, true⟩
    (manyNames (2 ^ 32 + 1))
  have hkeys := h _ _ s hrun hinit
  rw [declaredKeys_eq hrun hinit, numbered_eq_zipIdx,
    firstDeclared_declarations _ (nodup_manyNames _), length_manyNames] at hkeys
  exact absurd hkeys (by decide)

end Lifecycle

end DeepInc.Worker
