/-
Which keys two partitions share.

A declared tensor has the number of its declaration, and its first key is that number times `2 ^
16`.  A tensor that is initialised has as many keys from that first one on as it has partitions.
The comment in the source speaks of up to `2 ^ 16` partitions for each tensor, and of as many
tensors; nothing checks either.

So a tensor with more partitions goes on with the keys of the next one, if there is a next one.
The keys of all tensors are distinct exactly if each of them has room up to the first key of
every other one.  The last tensor has room for many more, and within the limits of the comment
all have.

Declarations and initialisations may come in any order, and some tensors may never be
initialised; those have no keys and need no room.
-/
import DeepInc.Lib.System
import DeepInc.Proofs.Worker.Context

namespace DeepInc.Worker

open Transition

/-! ### The keys of one tensor

Two tensors of which one begins with a smaller number share a key as soon as that one has more
keys than lie between their first ones.
-/

/-- The keys from the first one of a tensor up to the first one of another. -/
def keyRoom (d d' : ℕ) : ℕ := uint64 (2 ^ 64 + d' * 2 ^ 16 - d * 2 ^ 16)

theorem mem_keysFrom {d n k : ℕ} : k ∈ keysFrom d n ↔ ∃ i < n, uint64 (uint64 (d * 2 ^ 16) + i) = k := by
  simp [keysFrom]

/-- A tensor's own keys are distinct. -/
theorem nodup_keysFrom (d : ℕ) {n : ℕ} (hn : n ≤ 2 ^ 64) : (keysFrom d n).Nodup := by
  refine List.nodup_range.map_on fun i hi j hj heq => ?_
  have hi' := List.mem_range.mp hi
  have hj' := List.mem_range.mp hj
  unfold uint64 at heq
  omega

/-- Two tensors share a key unless each has room for its own. -/
theorem disjoint_keysFrom {d d' n n' : ℕ} (hd : d < 2 ^ 32) (hd' : d' < 2 ^ 32) (hn : 0 < n)
    (hn' : 0 < n') :
    (keysFrom d n).Disjoint (keysFrom d' n') ↔ n ≤ keyRoom d d' ∧ n' ≤ keyRoom d' d := by
  constructor
  · intro h
    constructor
    · by_contra hroom
      refine h (mem_keysFrom.mpr ⟨keyRoom d d', Nat.lt_of_not_le hroom, rfl⟩)
        (mem_keysFrom.mpr ⟨0, hn', ?_⟩)
      unfold keyRoom uint64
      omega
    · by_contra hroom
      refine h (mem_keysFrom.mpr ⟨0, hn, rfl⟩)
        (mem_keysFrom.mpr ⟨keyRoom d' d, Nat.lt_of_not_le hroom, ?_⟩)
      unfold keyRoom uint64
      omega
  · rintro ⟨hroom, hroom'⟩ k hk hk'
    obtain ⟨i, hi, rfl⟩ := mem_keysFrom.mp hk
    obtain ⟨j, hj, heq⟩ := mem_keysFrom.mp hk'
    unfold keyRoom uint64 at *
    omega

/-! ### All tensors

The invariant says of the worker what every call keeps: names are distinct, contexts are
numbered in their order by a counter of 32 bits, and a context has no keys or those of its
number.
-/

variable {K : Type} {cfg : Config}

/-- The keys a context has for its size. -/
structure Context.Keyed (cfg : Config) (c : Context K) : Prop where
  fresh : c.initialized = false → c.keyList = []
  keys : c.initialized = true → c.keyList = keysFrom c.declaredKey (numParts c.buffLen cfg.partitionBytes)
  size : c.initialized = true → 0 < c.buffLen ∧ c.buffLen < 2 ^ 64

namespace Global

/-- What every sequence of calls keeps. -/
structure Inv (cfg : Config) (g : Global K) : Prop where
  names : (g.contexts.map (·.tensorName)).Nodup
  nextKey : g.nextKey = uint32 g.contexts.length
  numbered : ∀ i c, g.contexts[i]? = some c → c.declaredKey = uint32 i
  keyed : ∀ c ∈ g.contexts, c.Keyed cfg

theorem inv_init : (init : Global K).Inv cfg where
  names := List.nodup_nil
  nextKey := rfl
  numbered i c h := by simp [init] at h
  keyed c h := by cases h

theorem find_spec {g : Global K} {name : String} {c : Context K} (h : g.find name = some c) :
    c ∈ g.contexts ∧ c.tensorName = name :=
  ⟨List.mem_of_find?_eq_some h, by simpa using List.find?_some h⟩

theorem find_eq_none {g : Global K} {name : String} (h : ¬(g.find name).isSome) :
    name ∉ g.contexts.map (·.tensorName) := by
  intro hmem
  obtain ⟨c, hc, hname⟩ := List.mem_map.mp hmem
  refine h ?_
  unfold find
  rw [List.find?_isSome]
  exact ⟨c, hc, by simpa using hname⟩

/-- A declaration. -/
theorem Inv.isTensorDeclared {g : Global K} (h : g.Inv cfg) (name : String) :
    (g.isTensorDeclared name).2.Inv cfg := by
  unfold Global.isTensorDeclared
  by_cases hfound : (g.find name).isSome
  · rw [if_pos hfound]
    exact h
  · rw [if_neg hfound]
    refine ⟨?_, ?_, fun i c hc => ?_, fun c hc => ?_⟩
    · rw [List.map_append, List.nodup_append']
      refine ⟨h.names, List.nodup_singleton _, ?_⟩
      simpa using find_eq_none hfound
    · simp only [List.length_append, List.length_singleton]
      rw [h.nextKey]
      unfold uint32
      omega
    · rcases Nat.lt_or_ge i g.contexts.length with hi | hi
      · rw [List.getElem?_append_left hi] at hc
        exact h.numbered i c hc
      · rw [List.getElem?_append_right hi] at hc
        obtain ⟨hi', rfl⟩ := List.getElem?_eq_some_iff.mp hc
        simp only [List.length_singleton] at hi'
        simp only [show i - g.contexts.length = 0 by omega, List.getElem_cons_zero]
        rw [h.nextKey, show i = g.contexts.length by omega]
    · rcases List.mem_append.mp hc with hc | hc
      · exact h.keyed c hc
      · obtain rfl := List.mem_singleton.mp hc
        exact ⟨fun _ => rfl, fun h => by simp at h, fun h => by simp at h⟩

/-- A context is written that keeps its name and its number. -/
theorem Inv.update {g : Global K} (h : g.Inv cfg) {c c' : Context K} (hc : c ∈ g.contexts)
    (hname : c'.tensorName = c.tensorName) (hkey : c'.declaredKey = c.declaredKey)
    (hkeyed : c'.Keyed cfg) : (g.update c').Inv cfg := by
  have hnames : (g.update c').contexts.map (·.tensorName) = g.contexts.map (·.tensorName) := by
    unfold Global.update
    rw [List.map_map]
    refine List.map_congr_left fun c₁ _ => ?_
    simp only [Function.comp]
    split
    · rename_i heq
      exact heq.symm
    · rfl
  refine ⟨by rw [hnames]; exact h.names, ?_, fun i c₁ hi => ?_, fun c₁ hc₁ => ?_⟩
  · simpa [Global.update] using h.nextKey
  · simp only [Global.update, List.getElem?_map, Option.map_eq_some_iff] at hi
    obtain ⟨c₂, hc₂, rfl⟩ := hi
    have hnum := h.numbered i c₂ hc₂
    split
    · rename_i heq
      -- names are distinct, so the context at this position is the one that is written
      have hsame : c₂ = c := List.inj_on_of_nodup_map h.names (List.mem_of_getElem? hc₂) hc
        (heq.trans hname)
      rw [hkey, ← hsame]
      exact hnum
    · exact hnum
  · obtain ⟨c₂, hc₂, rfl⟩ := List.mem_map.mp hc₁
    split
    · exact hkeyed
    · exact h.keyed c₂ hc₂

/-- What a call that returns does. -/
inductive Step (cfg : Config) (g : Global K) : Call → Global K → Prop
  | isTensorDeclared (name : String) :
    Step cfg g (.isTensorDeclared name) (g.isTensorDeclared name).2
  | initTensor (name : String) (size : BitVec 64) (dtype : DataType) (context context' : Context K)
    (hfind : g.find name = some context)
    (hinit : Worker.initTensor cfg context size.toNat dtype = .ok context') :
    Step cfg g (.initTensor name size dtype) (g.update context')
  | registerCompressor (name : String) (kwargs : Compressor.Kwargs) (context : Context K)
    (hfind : g.find name = some context) :
    Step cfg g (.registerCompressor name kwargs) (g.update { context with kwargs := some kwargs })

theorem step_cases {g g' : Global K} {call : Call} (hstep : g.step cfg call = .ok g') :
    Step cfg g call g' := by
  cases call with
  | isTensorDeclared name =>
      cases hstep
      exact .isTensorDeclared name
  | initTensor name size dtype =>
      unfold Global.step at hstep
      cases hfind : g.find name with
      | none => simp [hfind] at hstep
      | some context =>
          simp only [hfind] at hstep
          obtain ⟨context', hinit, rfl⟩ := Outcome.map_eq_ok hstep
          exact .initTensor name size dtype context context' hfind hinit
  | registerCompressor name kwargs =>
      unfold Global.step at hstep
      cases hfind : g.find name with
      | none => simp [hfind] at hstep
      | some context =>
          simp only [hfind] at hstep
          cases hstep
          exact .registerCompressor name kwargs context hfind

/-- **Every call keeps the keys where they belong.** -/
theorem Inv.step {g g' : Global K} {call : Call} (hbound : 0 < cfg.partitionBytes) (h : g.Inv cfg)
    (hstep : g.step cfg call = .ok g') : g'.Inv cfg := by
  cases step_cases hstep with
  | isTensorDeclared name => exact h.isTensorDeclared name
  | initTensor name size dtype context context' hfind hinit =>
      obtain ⟨hmem, _⟩ := find_spec hfind
      by_cases hdone : context.initialized = true
      · unfold Worker.initTensor at hinit
        rw [if_pos hdone] at hinit
        cases hinit
        exact h.update hmem rfl rfl (h.keyed context hmem)
      · obtain ⟨hpos, keyList, compressors, lens, kwargs, hkeys, _, _, _, _, _, rfl⟩ :=
          initTensor_spec (Bool.eq_false_of_not_eq_true hdone) hinit
        rw [initKeys_eq context.declaredKey hbound size.isLt] at hkeys
        cases hkeys
        exact h.update hmem rfl rfl ⟨fun h => by simp at h, fun _ => rfl, fun _ => ⟨hpos, size.isLt⟩⟩
  | registerCompressor name kwargs context hfind =>
      obtain ⟨hmem, _⟩ := find_spec hfind
      have hkeyed := h.keyed context hmem
      exact h.update hmem rfl rfl ⟨hkeyed.fresh, hkeyed.keys, hkeyed.size⟩

/-- The states sequences of calls arrive at. -/
abbrev Reached (cfg : Config) : Global K → Prop :=
  Reachable (· = init) fun g call g' => g.step cfg call = .ok g'

theorem inv_of_reached (hbound : 0 < cfg.partitionBytes) {g : Global K} (h : Reached cfg g) :
    g.Inv cfg :=
  h.invariant (fun _ h => h ▸ inv_init) fun _ _ _ _ hinv hstep => hinv.step hbound hstep

/-- Every tensor has room for its keys up to the first one of every other tensor. -/
def HasRoom (cfg : Config) (g : Global K) : Prop :=
  ∀ i j c c', i ≠ j → g.contexts[i]? = some c → g.contexts[j]? = some c' → c.initialized = true →
    c'.initialized = true → numParts c.buffLen cfg.partitionBytes ≤ keyRoom (uint32 i) (uint32 j)

/-- Two contexts share no key when both have room. -/
theorem Inv.disjoint_iff {g : Global K} (h : g.Inv cfg) (hbound : 0 < cfg.partitionBytes) {i j : ℕ}
    {c c' : Context K} (hi : g.contexts[i]? = some c) (hj : g.contexts[j]? = some c') :
    c.keyList.Disjoint c'.keyList ↔ (c.initialized = true → c'.initialized = true →
      numParts c.buffLen cfg.partitionBytes ≤ keyRoom (uint32 i) (uint32 j) ∧
        numParts c'.buffLen cfg.partitionBytes ≤ keyRoom (uint32 j) (uint32 i)) := by
  have hc := h.keyed c (List.mem_of_getElem? hi)
  have hc' := h.keyed c' (List.mem_of_getElem? hj)
  have hlt : ∀ n, uint32 n < 2 ^ 32 := fun n => Nat.mod_lt n (by decide)
  have hparts : ∀ c : Context K, c.Keyed cfg → c.initialized = true →
      0 < numParts c.buffLen cfg.partitionBytes := by
    intro c hc hinit
    have := (hc.size hinit).1
    exact (lt_numParts hbound).mpr (by omega)
  by_cases hinit : c.initialized = true
  · by_cases hinit' : c'.initialized = true
    · rw [hc.keys hinit, hc'.keys hinit', h.numbered i c hi, h.numbered j c' hj,
        disjoint_keysFrom (hlt i) (hlt j) (hparts c hc hinit) (hparts c' hc' hinit')]
      exact ⟨fun h _ _ => h, fun h => h hinit hinit'⟩
    · rw [hc'.fresh (Bool.eq_false_of_not_eq_true hinit')]
      exact ⟨fun _ _ h => absurd h hinit', fun _ => List.disjoint_nil_right _⟩
  · rw [hc.fresh (Bool.eq_false_of_not_eq_true hinit)]
    exact ⟨fun _ h => absurd h hinit, fun _ => List.disjoint_nil_left _⟩

theorem Inv.nodup_keys_iff {g : Global K} (h : g.Inv cfg) (hbound : 0 < cfg.partitionBytes) :
    g.keys.Nodup ↔ HasRoom cfg g := by
  have hown : ∀ c ∈ g.contexts, c.keyList.Nodup := by
    intro c hc
    have hkeyed := h.keyed c hc
    by_cases hinit : c.initialized = true
    · rw [hkeyed.keys hinit]
      refine nodup_keysFrom _ ?_
      have hsize := (hkeyed.size hinit).2
      have hle : numParts c.buffLen cfg.partitionBytes ≤ c.buffLen := by
        by_contra hlt
        have := (lt_numParts hbound).mp (Nat.lt_of_not_le hlt)
        exact absurd (Nat.le_mul_of_pos_right c.buffLen hbound) (Nat.not_le.mpr this)
      omega
    · rw [hkeyed.fresh (Bool.eq_false_of_not_eq_true hinit)]
      exact List.nodup_nil
  unfold keys
  rw [List.nodup_flatMap]
  constructor
  · rintro ⟨_, hdisj⟩ i j c c' hij hi hj hinit hinit'
    rcases Nat.lt_or_gt_of_ne hij with hlt | hlt
    · have hpair := List.pairwise_iff_getElem.mp hdisj i j
      obtain ⟨hi', rfl⟩ := List.getElem?_eq_some_iff.mp hi
      obtain ⟨hj', rfl⟩ := List.getElem?_eq_some_iff.mp hj
      exact ((h.disjoint_iff hbound hi hj).mp (hpair hi' hj' hlt) hinit hinit').1
    · have hpair := List.pairwise_iff_getElem.mp hdisj j i
      obtain ⟨hi', rfl⟩ := List.getElem?_eq_some_iff.mp hi
      obtain ⟨hj', rfl⟩ := List.getElem?_eq_some_iff.mp hj
      exact ((h.disjoint_iff hbound hj hi).mp (hpair hj' hi' hlt) hinit' hinit).2
  · intro hroom
    refine ⟨hown, List.pairwise_iff_getElem.mpr fun i j hi hj hlt => ?_⟩
    have hi' := List.getElem?_eq_getElem hi
    have hj' := List.getElem?_eq_getElem hj
    refine (h.disjoint_iff hbound hi' hj').mpr fun hinit hinit' => ⟨?_, ?_⟩
    · exact hroom i j _ _ (Nat.ne_of_lt hlt) hi' hj' hinit hinit'
    · exact hroom j i _ _ (Nat.ne_of_gt hlt) hj' hi' hinit' hinit

/-- The limits the code supports: `2 ^ 16` tensors, of `2 ^ 16` partitions each. -/
theorem nodup_keys_of_limits (hbound : 0 < cfg.partitionBytes) {g : Global K} (h : Reached cfg g)
    (hcount : g.contexts.length ≤ 2 ^ 16)
    (hparts : ∀ c ∈ g.contexts, numParts c.buffLen cfg.partitionBytes ≤ 2 ^ 16) : g.keys.Nodup := by
  refine ((inv_of_reached hbound h).nodup_keys_iff hbound).mpr fun i j c c' hij hi hj _ _ => ?_
  have hparts := hparts c (List.mem_of_getElem? hi)
  have hi := (List.getElem?_eq_some_iff.mp hi).1
  have hj := (List.getElem?_eq_some_iff.mp hj).1
  unfold keyRoom uint32 uint64
  omega

/--
**No two partitions share a key exactly if all tensors have room for theirs.** Nothing keeps a
tensor from having more partitions than that.

The calls may come in any order, and tensors that were never initialised have no keys.
-/
theorem nodup_keys_iff_hasRoom (hbound : 0 < cfg.partitionBytes) {g : Global K}
    (h : Reached cfg g) : g.keys.Nodup ↔ HasRoom cfg g :=
  (inv_of_reached hbound h).nodup_keys_iff hbound

/-- Partitions of at most four bytes. -/
def wordParts : Config := ⟨4, 0, false, true⟩

/-- A tensor with these keys, or one that is only declared. -/
def keyed (name : String) (d : ℕ) (keys : List ℕ) (size : ℕ) : Context ℚ :=
  ⟨decide (0 < size), name, d, keys, size, [], none⟩

/-- Two tensors, in three partitions and in two; the keys of the second begin at `2 ^ 16`. -/
theorem nodup_keys_iff_hasRoom_two :
    Global.keys (K := ℚ) ⟨[keyed "a" 0 [0, 1, 2] 10, keyed "b" 1 [65536, 65537] 6], 2,
        ["a", "b"]⟩ = [0, 1, 2, 65536, 65537] ∧
      HasRoom wordParts ⟨[keyed "a" 0 [0, 1, 2] 10, keyed "b" 1 [65536, 65537] 6], 2, ["a", "b"]⟩ := by
  have hdeclared : Reached wordParts ⟨[keyed "a" 0 [] 0, keyed "b" 1 [] 0], 2, ["a", "b"]⟩ :=
    .next (a := .isTensorDeclared "b") (.next (a := .isTensorDeclared "a") (.start rfl) rfl) rfl
  have hfirst : Reached wordParts ⟨[keyed "a" 0 [0, 1, 2] 10, keyed "b" 1 [] 0], 2, ["a", "b"]⟩ :=
    .next (a := .initTensor "a" 10 .int8) hdeclared rfl
  exact ⟨rfl, (nodup_keys_iff_hasRoom (by decide)
    (.next (a := .initTensor "b" 6 .int8) hfirst rfl)).mp (by decide)⟩

/-- A tensor of 65537 partitions of a page takes the first key of the next tensor. -/
theorem partitions_take_next_key : ¬∀ (env : Option ℤ) (localSize pagesize : ℕ) (cfg : Config)
    (g : Global ℚ), cfg.partitionBytes = initPartitionBytes env localSize pagesize →
      0 < cfg.partitionBytes → Reached cfg g → g.keys.Nodup := by
  intro h
  let cfg : Config := ⟨4096, 65536, false, true⟩
  let fresh : String → ℕ → Context ℚ := fun name d => ⟨false, name, d, [], 0, [], none⟩
  let done : String → ℕ → ℕ → Context ℚ := fun name d size =>
    ⟨true, name, d, keysFrom d (numParts size 4096), size, [], none⟩
  have hinit : ∀ (name : String) (d size : ℕ), 0 < size → size < 2 ^ 63 →
      Worker.initTensor cfg (fresh name d) size .float32 = .ok (done name d size) := by
    intro name d size hpos hlt
    refine initTensor_eq cfg _ size _ none rfl hpos hlt (by decide) (by decide) ?_ ?_ rfl
    · exact Nat.lt_of_le_of_lt (Nat.min_le_left _ _) (by decide)
    · simp [fresh]
  let g₁ : Global ℚ := ⟨[fresh "a" 0, fresh "b" 1], 2, ["a", "b"]⟩
  let g₂ : Global ℚ := ⟨[done "a" 0 268439552, fresh "b" 1], 2, ["a", "b"]⟩
  let g₃ : Global ℚ := ⟨[done "a" 0 268439552, done "b" 1 4096], 2, ["a", "b"]⟩
  have hreach₁ : Reached cfg g₁ :=
    .next (a := .isTensorDeclared "b") (.next (a := .isTensorDeclared "a") (.start rfl) rfl) rfl
  have hreach₂ : Reached cfg g₂ := by
    refine .next (a := .initTensor "a" 268439552 .float32) hreach₁ ?_
    show (Worker.initTensor cfg (fresh "a" 0) 268439552 .float32).map g₁.update = .ok g₂
    rw [hinit "a" 0 268439552 (by decide) (by decide)]
    rfl
  have hreach₃ : Reached cfg g₃ := by
    refine .next (a := .initTensor "b" 4096 .float32) hreach₂ ?_
    show (Worker.initTensor cfg (fresh "b" 1) 4096 .float32).map g₂.update = .ok g₃
    rw [hinit "b" 1 4096 (by decide) (by decide)]
    rfl
  have hroom := ((inv_of_reached (by decide) hreach₃).nodup_keys_iff (by decide)).mp
    (h (some 4096) 1 4096 cfg g₃ rfl (by decide) hreach₃)
  exact absurd (hroom 0 1 _ _ (by decide) rfl rfl rfl rfl) (by decide)

end Global

end DeepInc.Worker
