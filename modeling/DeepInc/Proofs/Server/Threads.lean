/-
Which engine thread a key is given.

`GetThreadID` places a key when it is first called with its data, at the thread whose load is
least, and adds the length of the data to that load.  Later calls look the thread up.  A pull
asks with length zero, and comes after a push.

The loads are therefore what a greedy placement makes of the first calls, and `Lib/Greedy.lean`
says how even that is: no two loads are further apart than the greatest of the first calls.  For
that, the search has to find a thread of least load.

The search compares with a number that starts at the greatest there is.  A thread with that load
is not found, and if all threads have it the check behind the search fails.  So a bound on what
was asked for is needed, and it is that the lengths of the first calls add up to less than that
number.
-/
import DeepInc.Lib.Greedy
import DeepInc.Proofs.Server.State
import DeepInc.Server.Start
import Mathlib.Data.Rat.Init

namespace DeepInc.Server

variable {α κ : Type} {cfg : Config}

namespace State

/-! ### The search for the least load -/

theorem minLoadLoop_lt (accLoad : ℕ → ℕ) (n i : ℕ)
    (h : (minLoadLoop accLoad n).1 = some i) : i < n := by
  induction n with
  | zero => simp [minLoadLoop] at h
  | succ n ih =>
      simp only [minLoadLoop] at h
      split at h
      · obtain rfl := Option.some.inj h
        exact Nat.lt_succ_self n
      · exact Nat.lt_succ_of_lt (ih h)

/-- What the loop has found is the least load so far, if it is not the number it starts with. -/
theorem minLoadLoop_spec (accLoad : ℕ → ℕ) (n : ℕ) :
    (∀ j < n, (minLoadLoop accLoad n).2 ≤ accLoad j) ∧
      match (minLoadLoop accLoad n).1 with
      | none => (minLoadLoop accLoad n).2 = 2 ^ 64 - 1
      | some i => (minLoadLoop accLoad n).2 = accLoad i := by
  induction n with
  | zero => exact ⟨fun j hj => absurd hj (Nat.not_lt_zero j), rfl⟩
  | succ n ih =>
      obtain ⟨hle, hfound⟩ := ih
      simp only [minLoadLoop]
      split
      · rename_i hlt
        refine ⟨fun j hj => ?_, rfl⟩
        rcases Nat.lt_succ_iff_lt_or_eq.mp hj with hj | rfl
        · exact hlt.le.trans (hle j hj)
        · exact Nat.le_refl _
      · rename_i hge
        refine ⟨fun j hj => ?_, hfound⟩
        rcases Nat.lt_succ_iff_lt_or_eq.mp hj with hj | rfl
        · exact hle j hj
        · exact Nat.le_of_not_lt hge

/-- The thread that is found is one of the least loaded. -/
theorem minLoadLoop_least {accLoad : ℕ → ℕ} {n i : ℕ} (h : (minLoadLoop accLoad n).1 = some i) :
    ∀ j < n, accLoad i ≤ accLoad j := by
  obtain ⟨hle, hfound⟩ := minLoadLoop_spec accLoad n
  rw [h] at hfound
  exact fun j hj => hfound ▸ hle j hj

/-- A thread whose load is not the greatest number there is makes the loop find one. -/
theorem minLoadLoop_isSome (accLoad : ℕ → ℕ) {n : ℕ} (hn : 0 < n)
    (h : ∀ i < n, accLoad i < 2 ^ 64 - 1) : ∃ i, (minLoadLoop accLoad n).1 = some i := by
  obtain ⟨hle, hfound⟩ := minLoadLoop_spec accLoad n
  cases hl : (minLoadLoop accLoad n).1 with
  | none =>
      rw [hl] at hfound
      have := hle 0 hn
      have := h 0 hn
      omega
  | some i => exact ⟨i, rfl⟩

end State

/-! ### The calls

`Assigned` is the state after any calls: the loads are those of a greedy placement of the first
calls, and the cache knows the thread of every key.  A call either places its key or changes
nothing.
-/

/-- The first call of every key. -/
def firstCalls (calls : List (Key × ℕ)) : List (Key × ℕ) :=
  calls.foldl (fun first call => if call.1 ∈ first.map (·.1) then first else first ++ [call]) []

theorem mem_map_firstCalls (calls : List (Key × ℕ)) (key : Key) :
    key ∈ (firstCalls calls).map (·.1) ↔ key ∈ calls.map (·.1) := by
  unfold firstCalls
  induction calls using List.reverseRecOn with
  | nil => simp
  | append_singleton calls call ih =>
      rw [List.foldl_append, List.foldl_cons, List.foldl_nil, List.map_append, List.mem_append, ← ih]
      split
      · rename_i hmem
        constructor
        · exact .inl
        · rintro (h | h)
          · exact h
          · rw [List.map_singleton, List.mem_singleton] at h
            exact h ▸ hmem
      · rw [List.map_append, List.mem_append]

theorem firstCalls_append (calls : List (Key × ℕ)) (call : Key × ℕ) :
    firstCalls (calls ++ [call]) =
      if call.1 ∈ calls.map (·.1) then firstCalls calls else firstCalls calls ++ [call] := by
  have h : firstCalls (calls ++ [call]) = if call.1 ∈ (firstCalls calls).map (·.1) then
      firstCalls calls else firstCalls calls ++ [call] := List.foldl_append
  rw [h]
  simp only [mem_map_firstCalls]

theorem sum_firstCalls_le (calls : List (Key × ℕ)) :
    ((firstCalls calls).map (·.2)).sum ≤ (calls.map (·.2)).sum := by
  induction calls using List.reverseRecOn with
  | nil => exact Nat.le_refl _
  | append_singleton calls call ih =>
      rw [firstCalls_append, List.map_append, List.sum_append]
      split
      · exact ih.trans (Nat.le_add_right _ _)
      · rw [List.map_append, List.sum_append]
        exact Nat.add_le_add_right ih _

/-- A list of calls of `GetThreadID`, and the threads they return. -/
def threadsOf (cfg : Config) : State α κ → List (Key × ℕ) → Except Fault (List ℕ × State α κ)
  | s, [] => .ok ([], s)
  | s, (key, len) :: calls => do
    let (t, s) ← s.getThreadID cfg key len
    let (ts, s) ← threadsOf cfg s calls
    .ok (t :: ts, s)

/-- Length zero comes only for keys that have a thread. -/
def LooksUpKnown (calls : List (Key × ℕ)) : Prop :=
  ∀ past key rest, calls = past ++ (key, 0) :: rest → key ∈ past.map (·.1)

/-- What every list of calls keeps. -/
structure Assigned (cfg : Config) (calls : List (Key × ℕ)) (s : State α κ) : Prop where
  size : s.accLoad.size = cfg.engineThreadNum
  known : ∀ key, s.hashCache key = none ↔ key ∉ calls.map (·.1)
  /-- the first calls have been placed greedily -/
  placed : ∃ jobs : List (Key × ℕ × Fin cfg.engineThreadNum),
    jobs.map (fun job => (job.1, job.2.1)) = firstCalls calls ∧
      (∀ job ∈ jobs, s.hashCache job.1 = some job.2.2.val) ∧
      Greedy.Placed (jobs.map (·.2)) fun i : Fin cfg.engineThreadNum => s.accLoad.get i

namespace Assigned

variable {calls : List (Key × ℕ)} {s : State α κ}

theorem start (cfg : Config) : Assigned cfg [] (startServer cfg : State α κ) where
  size := rfl
  known key := by simp [startServer]
  placed := ⟨[], rfl, fun job h => absurd h List.not_mem_nil, .start⟩

/-- No load is above what has been asked for. -/
theorem load_le (h : Assigned cfg calls s) {i : ℕ} (hi : i < cfg.engineThreadNum) :
    s.accLoad.get i ≤ (calls.map (·.2)).sum := by
  obtain ⟨jobs, hjobs, _, hplaced⟩ := h.placed
  have hle := hplaced.load_le_sum ⟨i, hi⟩
  have hfirst : (jobs.map (·.2)).map (·.1) = (firstCalls calls).map (·.2) := by
    rw [← hjobs, List.map_map, List.map_map]
    rfl
  rw [hfirst] at hle
  exact hle.trans (sum_firstCalls_le calls)

/-- A call for a key that has a thread changes nothing. -/
theorem again (h : Assigned cfg calls s) {key : Key} {t : ℕ} (hkey : s.hashCache key = some t)
    (len : ℕ) : Assigned cfg (calls ++ [(key, len)]) s := by
  have hmem : key ∈ calls.map (·.1) := by
    by_contra hnot
    rw [(h.known key).mpr hnot] at hkey
    cases hkey
  refine ⟨h.size, fun k => ?_, ?_⟩
  · rw [h.known, List.map_append, List.mem_append, List.map_singleton, List.mem_singleton]
    constructor
    · rintro hnot (hk | rfl)
      · exact hnot hk
      · exact hnot hmem
    · exact fun hnot hk => hnot (.inl hk)
  · rw [firstCalls_append, if_pos hmem]
    exact h.placed

/-- A key is placed at a thread of least load. -/
theorem place (h : Assigned cfg calls s) {key : Key} (hkey : s.hashCache key = none) {len i : ℕ}
    (hi : i < cfg.engineThreadNum)
    (hleast : ∀ j < cfg.engineThreadNum, s.accLoad.get i ≤ s.accLoad.get j) :
    Assigned cfg (calls ++ [(key, len)]) { s with
      accLoad := s.accLoad.set i (s.accLoad.get i + len)
      hashCache := Function.update s.hashCache key (some i) } := by
  have hnew := (h.known key).mp hkey
  obtain ⟨jobs, hjobs, hcache, hplaced⟩ := h.placed
  refine ⟨h.size, fun k => ?_, jobs ++ [(key, len, ⟨i, hi⟩)], ?_, fun job hjob => ?_, ?_⟩
  · show Function.update s.hashCache key (some i) k = none ↔ _
    rw [List.map_append, List.mem_append, List.map_singleton, List.mem_singleton]
    by_cases hk : k = key
    · subst hk
      simp
    · rw [Function.update_of_ne hk, h.known]
      simp [hk]
  · rw [firstCalls_append, if_neg hnew, List.map_append, hjobs]
    rfl
  · rcases List.mem_append.mp hjob with hold | hlast
    · have hne : job.1 ≠ key := by
        intro heq
        have hnone := hcache job hold
        rw [heq, hkey] at hnone
        cases hnone
      exact (Function.update_of_ne hne _ _).trans (hcache job hold)
    · obtain rfl := List.mem_singleton.mp hlast
      exact Function.update_self ..
  · have hload : (fun j : Fin cfg.engineThreadNum =>
        (s.accLoad.set i (s.accLoad.get i + len)).get j) =
        Function.update (fun j : Fin cfg.engineThreadNum => s.accLoad.get j) ⟨i, hi⟩
          (s.accLoad.get i + len) := by
      funext j
      by_cases hj : j = ⟨i, hi⟩
      · rw [hj, Function.update_self]
        exact Vec.set_get_self _ _ _
      · rw [Function.update_of_ne hj]
        exact Vec.set_get_ne _ (fun hval => hj (Fin.ext hval)) _
    have hplace : Greedy.Placed (jobs.map (·.2) ++ [(len, ⟨i, hi⟩)])
        (Function.update (fun j : Fin cfg.engineThreadNum => s.accLoad.get j) ⟨i, hi⟩
          (s.accLoad.get i + len)) :=
      hplaced.place len fun j => hleast j j.isLt
    rw [← hload] at hplace
    rw [List.map_append]
    exact hplace

/-- **A call returns**, and what it does is one of these two. -/
theorem getThreadID (h : Assigned cfg calls s) (hn : 0 < cfg.engineThreadNum) {key : Key} {len : ℕ}
    (hlen : len = 0 → key ∈ calls.map (·.1)) (hsum : (calls.map (·.2)).sum + len < 2 ^ 64 - 1) :
    ∃ t s', s.getThreadID cfg key len = .ok (t, s') ∧ Assigned cfg (calls ++ [(key, len)]) s' ∧
      s'.hashCache key = some t ∧ ∀ k t', s.hashCache k = some t' → s'.hashCache k = some t' := by
  unfold State.getThreadID
  cases hkey : s.hashCache key with
  | some t => exact ⟨t, s, rfl, h.again hkey len, hkey, fun _ _ h => h⟩
  | none =>
      have hpos : 0 < len := by
        rcases Nat.eq_zero_or_pos len with hzero | hpos
        · exact absurd (hlen hzero) ((h.known key).mp hkey)
        · exact hpos
      obtain ⟨i, hi⟩ := State.minLoadLoop_isSome s.accLoad.get hn fun i hi => by
        have := h.load_le hi
        omega
      have hilt := State.minLoadLoop_lt _ _ _ hi
      have hmod : (s.accLoad.get i + len) % 2 ^ 64 = s.accLoad.get i + len :=
        Nat.mod_eq_of_lt (by have := h.load_le hilt; omega)
      simp only [Nat.ne_of_gt hpos, if_false, check_ok hpos, check_ok h.size, hi, check_ok hilt, hmod]
      refine ⟨i, _, rfl, h.place hkey hilt (State.minLoadLoop_least hi), Function.update_self ..,
        fun k t' hk => ?_⟩
      have hne : k ≠ key := by
        rintro rfl
        rw [hkey] at hk
        cases hk
      exact (Function.update_of_ne hne _ _).trans hk

/-- Every list of calls returns. -/
theorem threadsOf (h : Assigned cfg calls s) (hn : 0 < cfg.engineThreadNum)
    (rest : List (Key × ℕ)) (hknown : LooksUpKnown (calls ++ rest))
    (hsum : ((calls ++ rest).map (·.2)).sum < 2 ^ 64 - 1) :
    ∃ ts s', Server.threadsOf cfg s rest = .ok (ts, s') ∧ Assigned cfg (calls ++ rest) s' ∧
      ts.length = rest.length ∧ (∀ p ∈ rest.zip ts, s'.hashCache p.1.1 = some p.2) ∧
      ∀ k t, s.hashCache k = some t → s'.hashCache k = some t := by
  induction rest generalizing calls s with
  | nil => exact ⟨[], s, rfl, by rwa [List.append_nil], rfl, fun p hp => by simp at hp, fun _ _ h => h⟩
  | cons call rest ih =>
      obtain ⟨key, len⟩ := call
      have hlen : len = 0 → key ∈ calls.map (·.1) := by
        rintro rfl
        exact hknown calls key rest rfl
      have hsum' : (calls.map (·.2)).sum + len < 2 ^ 64 - 1 := by
        refine Nat.lt_of_le_of_lt ?_ hsum
        rw [List.map_append, List.map_cons, List.sum_append, List.sum_cons]
        omega
      obtain ⟨t, s₁, hget, hassigned, hkey, hkept⟩ := h.getThreadID hn hlen hsum'
      rw [List.append_cons] at hknown hsum ⊢
      obtain ⟨ts, s', hrest, hassigned', hlength, hzip, hkept'⟩ := ih hassigned hknown hsum
      refine ⟨t :: ts, s', ?_, hassigned', by rw [List.length_cons, hlength, List.length_cons], ?_,
        fun k t' hk => hkept' k t' (hkept k t' hk)⟩
      · unfold Server.threadsOf
        rw [hget, Outcome.ok_bind]
        dsimp only
        rw [hrest, Outcome.ok_bind]
      · intro p hp
        rcases List.mem_cons.mp hp with rfl | hp
        · exact hkept' key t hkey
        · exact hzip p hp

/-- Every key has a thread there is. -/
theorem thread_lt (h : Assigned cfg calls s) {key : Key} {t : ℕ} (hkey : s.hashCache key = some t) :
    t < cfg.engineThreadNum := by
  obtain ⟨jobs, hjobs, hcache, _⟩ := h.placed
  have hmem : key ∈ (firstCalls calls).map (·.1) := by
    rw [mem_map_firstCalls]
    by_contra hnot
    rw [(h.known key).mpr hnot] at hkey
    cases hkey
  rw [← hjobs, List.map_map] at hmem
  obtain ⟨job, hjob, rfl⟩ := List.mem_map.mp hmem
  have hthread := (hcache job hjob).symm.trans hkey
  exact Option.some.inj hthread ▸ job.2.2.isLt

/-- A load is the sum of the first calls of the keys of its thread. -/
theorem load_eq (h : Assigned cfg calls s) {i : ℕ} (hi : i < cfg.engineThreadNum) :
    s.accLoad.get i =
      (((firstCalls calls).filter fun call => s.hashCache call.1 = some i).map (·.2)).sum := by
  obtain ⟨jobs, hjobs, hcache, hplaced⟩ := h.placed
  have hon : ((jobs.map (·.2)).filter fun job => job.2 = (⟨i, hi⟩ : Fin _)).map (·.1) =
      ((firstCalls calls).filter fun call => s.hashCache call.1 = some i).map (·.2) := by
    rw [← hjobs, List.filter_map, List.filter_map, List.map_map, List.map_map]
    refine congrArg (List.map _) (List.filter_congr fun job hjob => ?_)
    simp only [Function.comp, hcache job hjob, Option.some.injEq, Fin.ext_iff]
  rw [← hon]
  exact hplaced.load_eq ⟨i, hi⟩

/-- Two loads are at most the greatest first call apart. -/
theorem balanced (h : Assigned cfg calls s) {i j : ℕ} (hi : i < cfg.engineThreadNum)
    (hj : j < cfg.engineThreadNum) :
    s.accLoad.get i ≤ s.accLoad.get j + ((firstCalls calls).map (·.2)).foldr max 0 := by
  obtain ⟨jobs, hjobs, _, hplaced⟩ := h.placed
  have hlargest : Greedy.largest (jobs.map (·.2)) = ((firstCalls calls).map (·.2)).foldr max 0 := by
    unfold Greedy.largest
    rw [← hjobs, List.map_map, List.map_map]
    rfl
  rw [← hlargest]
  exact hplaced.balanced ⟨i, hi⟩ ⟨j, hj⟩

end Assigned

/--
**The threads are loaded evenly.**  Every list of calls returns, every key keeps the thread it is
given, a thread's load is what the first calls of its keys asked for, and no two loads are further
apart than the greatest of these.
-/
theorem threads_balanced (hn : 0 < cfg.engineThreadNum) {calls : List (Key × ℕ)}
    (hknown : LooksUpKnown calls) (hsum : (calls.map (·.2)).sum < 2 ^ 64 - 1) :
    ∃ ts, ∃ s : State α κ, threadsOf cfg (startServer cfg) calls = .ok (ts, s) ∧
      ts.length = calls.length ∧
      (∀ p ∈ calls.zip ts, p.2 < cfg.engineThreadNum ∧ s.hashCache p.1.1 = some p.2) ∧
      (∀ i < cfg.engineThreadNum, s.accLoad.get i =
        (((firstCalls calls).filter fun call => s.hashCache call.1 = some i).map (·.2)).sum) ∧
      ∀ i < cfg.engineThreadNum, ∀ j < cfg.engineThreadNum,
        s.accLoad.get i - s.accLoad.get j ≤ ((firstCalls calls).map (·.2)).foldr max 0 := by
  obtain ⟨ts, s, hrun, hassigned, hlength, hzip, _⟩ :=
    (Assigned.start cfg).threadsOf hn calls hknown hsum
  rw [List.nil_append] at hassigned
  refine ⟨ts, s, hrun, hlength, fun p hp => ⟨hassigned.thread_lt (hzip p hp), hzip p hp⟩,
    fun i hi => hassigned.load_eq hi, fun i hi j hj => ?_⟩
  have hbalanced := hassigned.balanced hi hj
  omega

/-- Two threads, three keys, and a pull of the first key. -/
theorem threads_balanced_two :
    let cfg := initGlobalEnv (fun name => if name = "SERVER_ENGINE_THREAD" then some 2 else none) 2 0
    ∃ ts, ∃ s : State ℚ Unit, threadsOf cfg (startServer cfg) [(5, 10), (6, 4), (7, 3), (5, 0)] =
      .ok (ts, s) ∧ s.accLoad.get 0 - s.accLoad.get 1 ≤ 10 := by
  intro cfg
  have hknown : LooksUpKnown [(5, 10), (6, 4), (7, 3), (5, 0)] := by
    intro past key rest h
    match past, h with
    | [_, _, _], h =>
        simp only [List.cons_append, List.nil_append, List.cons.injEq, Prod.mk.injEq] at h
        obtain ⟨rfl, _, _, ⟨rfl, _⟩, _⟩ := h
        exact List.mem_cons_self
    | [], h | [_], h | [_, _], h | _ :: _ :: _ :: _ :: _, h => simp at h
  obtain ⟨ts, s, hrun, _, _, _, hbalanced⟩ :=
    threads_balanced (show 0 < cfg.engineThreadNum by decide) hknown (by decide)
  exact ⟨ts, s, hrun, hbalanced 0 (by decide) 1 (by decide)⟩

end DeepInc.Server
