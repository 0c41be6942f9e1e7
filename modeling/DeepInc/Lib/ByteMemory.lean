/-
Memory by byte.

An element is the bytes it takes, so that a copy of bytes and an operation on elements can
be compared.  A write names the bytes it changes; every other byte keeps what it holds.
-/
import DeepInc.Lib.Tiling

namespace ByteMemory

open Tiling

/-- What every address holds. -/
abbrev Memory (β : Type) := ℕ → β

variable {β : Type} {w : ℕ}

/-- The element of `w` bytes at an address. -/
def elem (w : ℕ) (m : Memory β) (a : ℕ) : Fin w → β := fun k => m (a + k)

/-- The elements from an address on. -/
def elems (w : ℕ) (m : Memory β) (a : ℕ) : ℕ → Fin w → β := fun i => elem w m (a + i * w)

/-- `len` bytes of another memory, from `b` on, put at `a`. -/
def memcpy (m : Memory β) (a : ℕ) (src : Memory β) (b len : ℕ) : Memory β :=
  fun x => if a ≤ x ∧ x < a + len then src (b + (x - a)) else m x

theorem width_pos {a count x : ℕ} (h : a ≤ x ∧ x < a + count * w) : 0 < w := by
  rcases Nat.eq_zero_or_pos w with rfl | hw
  · omega
  · exact hw

/-- `count` elements put at `a`. -/
def fill (m : Memory β) (a count : ℕ) (f : ℕ → Fin w → β) : Memory β :=
  fun x =>
    if h : a ≤ x ∧ x < a + count * w then
      f ((x - a) / w) ⟨(x - a) % w, Nat.mod_lt _ (width_pos h)⟩
    else m x

/-! ### Copies -/

theorem memcpy_of_has {m src : Memory β} {a len x : ℕ} (h : Range.Has ⟨a, len⟩ x) (b : ℕ) :
    memcpy m a src b len x = src (b + (x - a)) := if_pos h

theorem memcpy_of_not_has {m src : Memory β} {a len x : ℕ} (h : ¬Range.Has ⟨a, len⟩ x) (b : ℕ) :
    memcpy m a src b len x = m x := if_neg h

/-! ### Elements -/

theorem elems_add (m : Memory β) (a s i : ℕ) : elems w m (a + s * w) i = elems w m a (s + i) := by
  unfold elems
  rw [Nat.add_mul, Nat.add_assoc]

theorem fill_of_not_has {m : Memory β} {a count x : ℕ} {f : ℕ → Fin w → β}
    (h : ¬Range.Has ⟨a, count * w⟩ x) : fill m a count f x = m x := dif_neg h

theorem fill_zero (m : Memory β) (a : ℕ) (f : ℕ → Fin w → β) : fill m a 0 f = m := by
  funext x
  exact fill_of_not_has fun h => by
    unfold Range.Has Range.stop at h
    dsimp only at h
    omega

/-- A byte of element `i`, for short arithmetic. -/
theorem byte_lt {i count k : ℕ} (hi : i < count) (hk : k < w) : i * w + k < count * w :=
  calc i * w + k < i * w + w := Nat.add_lt_add_left hk _
    _ = (i + 1) * w := (Nat.succ_mul i w).symm
    _ ≤ count * w := Nat.mul_le_mul_right w hi

theorem elem_fill {m : Memory β} {a count i : ℕ} {f : ℕ → Fin w → β} (hi : i < count) :
    elem w (fill m a count f) (a + i * w) = f i := by
  funext k
  have hbyte := byte_lt hi k.isLt
  have hdiff : a + i * w + k - a = k + w * i := by
    rw [Nat.mul_comm w i]
    omega
  have hw : 0 < w := Nat.lt_of_le_of_lt (Nat.zero_le k) k.isLt
  have hdiv : (a + i * w + k - a) / w = i := by
    rw [hdiff, Nat.add_mul_div_left _ _ hw, Nat.div_eq_of_lt k.isLt, Nat.zero_add]
  have hmod : (a + i * w + k - a) % w = k := by
    rw [hdiff, Nat.add_mul_mod_self_left, Nat.mod_eq_of_lt k.isLt]
  unfold elem fill
  rw [dif_pos ⟨by omega, by omega⟩]
  -- the element by `hdiv`, the byte of it by `hmod`
  congr 1
  exact Fin.ext hmod

/-! ### Ranges of elements -/

/-- The bytes of elements that are not in a range. -/
theorem mul_le_of_not_has {r : Range} {j : ℕ} (h : ¬r.Has j) (w : ℕ) :
    (j + 1) * w ≤ r.start * w ∨ r.stop * w ≤ j * w := by
  by_cases hlt : j < r.start
  · exact .inl (Nat.mul_le_mul_right w hlt)
  · exact .inr (Nat.mul_le_mul_right w (Nat.le_of_not_lt fun hstop => h ⟨Nat.le_of_not_lt hlt, hstop⟩))

/-- A byte of an element is in the bytes of a range when the element is in the range. -/
theorem bytes_has_iff {r : Range} {j k : ℕ} (hk : k < w) (a : ℕ) :
    Range.Has ⟨a + r.start * w, r.len * w⟩ (a + j * w + k) ↔ r.Has j := by
  constructor
  · intro h
    by_contra hhas
    have hout := mul_le_of_not_has hhas w
    rw [Nat.succ_mul] at hout
    unfold Range.Has Range.stop at h
    unfold Range.stop at hout
    rw [Nat.add_mul] at hout
    dsimp only at h
    omega
  · intro h
    have hlo := Nat.mul_le_mul_right w h.1
    have hhi := Nat.mul_le_mul_right w (show j + 1 ≤ r.start + r.len from h.2)
    rw [Nat.succ_mul, Nat.add_mul] at hhi
    unfold Range.Has Range.stop
    dsimp only
    omega

/-- The elements after those of a range are written. -/
theorem elems_fill (m : Memory β) (a : ℕ) (r : Range) (f : ℕ → Fin w → β) (j : ℕ) :
    elems w (fill m (a + r.start * w) r.len f) a j =
      if r.Has j then f (j - r.start) else elems w m a j := by
  by_cases hhas : r.Has j
  · rw [if_pos hhas]
    obtain ⟨i, rfl⟩ : ∃ i, j = r.start + i := ⟨j - r.start, (Nat.add_sub_cancel' hhas.1).symm⟩
    have hi : i < r.len := Nat.lt_of_add_lt_add_left hhas.2
    rw [← elems_add, Nat.add_sub_cancel_left]
    exact elem_fill hi
  · rw [if_neg hhas]
    funext k
    exact fill_of_not_has fun h => hhas ((bytes_has_iff k.isLt a).mp h)

/-- The elements after those of a range are copied from the same place. -/
theorem elems_memcpy (m src : Memory β) (a : ℕ) (r : Range) (j : ℕ) :
    elems w (memcpy m (a + r.start * w) src (a + r.start * w) (r.len * w)) a j =
      if r.Has j then elems w src a j else elems w m a j := by
  by_cases hhas : r.Has j
  · rw [if_pos hhas]
    funext k
    have hbyte := (bytes_has_iff k.isLt a).mpr hhas
    exact (memcpy_of_has hbyte _).trans (congrArg src (Nat.add_sub_cancel' hbyte.1))
  · rw [if_neg hhas]
    funext k
    exact memcpy_of_not_has (fun h => hhas ((bytes_has_iff k.isLt a).mp h)) _

/-! ### Writers in turn -/

section Turns

variable {σ ι γ : Type} {step : σ → ι → Option σ}

theorem isSome_foldlM {l : List ι} (h : ∀ i ∈ l, ∀ s, (step s i).isSome) (s : σ) :
    (l.foldlM step s).isSome := by
  induction l generalizing s with
  | nil => rfl
  | cons i l ih =>
      obtain ⟨s', hs'⟩ := Option.isSome_iff_exists.mp (h i List.mem_cons_self s)
      rw [List.foldlM_cons, hs']
      exact ih (fun k hk => h k (List.mem_cons_of_mem i hk)) s'

/-- What no writer changes stays. -/
theorem view_foldlM_of_kept (view : σ → γ) {l : List ι} {s s' : σ}
    (h : ∀ i ∈ l, ∀ s s', step s i = some s' → view s' = view s) (hs' : l.foldlM step s = some s') :
    view s' = view s := by
  induction l generalizing s with
  | nil => exact congrArg view (Option.some.inj hs').symm
  | cons i l ih =>
      rw [List.foldlM_cons] at hs'
      obtain ⟨u, hu, hrest⟩ := Option.bind_eq_some_iff.mp hs'
      rw [ih (fun k hk => h k (List.mem_cons_of_mem i hk)) hrest]
      exact h i List.mem_cons_self s u hu

/-- What one writer alone changes is what it makes of it. -/
theorem view_foldlM_of_owner (view : σ → γ) (g : γ → γ) {l : List ι} (hnodup : l.Nodup) {o : ι}
    (ho : o ∈ l)
    (hkeep : ∀ i ∈ l, i ≠ o → ∀ s s', step s i = some s' → view s' = view s)
    (hown : ∀ s s', step s o = some s' → view s' = g (view s)) {s s' : σ}
    (hs' : l.foldlM step s = some s') : view s' = g (view s) := by
  induction l generalizing s with
  | nil => cases ho
  | cons i l ih =>
      rw [List.foldlM_cons] at hs'
      obtain ⟨u, hu, hrest⟩ := Option.bind_eq_some_iff.mp hs'
      have hi := (List.nodup_cons.mp hnodup).1
      by_cases heq : i = o
      · subst heq
        rw [← hown s u hu]
        refine view_foldlM_of_kept view (fun k hk => ?_) hrest
        exact hkeep k (List.mem_cons_of_mem i hk) fun hki => hi (hki ▸ hk)
      · have ho := (List.mem_cons.mp ho).resolve_left fun h => heq h.symm
        rw [ih (List.nodup_cons.mp hnodup).2 ho
          (fun k hk => hkeep k (List.mem_cons_of_mem i hk)) hrest]
        exact congrArg g (hkeep i List.mem_cons_self heq s u hu)

end Turns

end ByteMemory
