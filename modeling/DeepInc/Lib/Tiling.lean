/-
Ranges that tile an interval.

A range is a start and a length.  Ranges tile an interval when the first starts where the
interval does, each other one where the one before it ends, and the last ends with the
interval.  Then no two overlap, and every place of the interval is in one of them.
-/
import Mathlib.Algebra.BigOperators.Group.List.Defs
import Mathlib.Algebra.GroupWithZero.Nat
import Mathlib.Data.List.Range

namespace Tiling

/-- The places from `start` on. -/
structure Range where
  start : ℕ
  len : ℕ
  deriving DecidableEq, Repr

namespace Range

/-- The first place after the range. -/
def stop (r : Range) : ℕ := r.start + r.len

/-- A place of the range. -/
def Has (r : Range) (x : ℕ) : Prop := r.start ≤ x ∧ x < r.stop

instance (r : Range) (x : ℕ) : Decidable (r.Has x) := inferInstanceAs (Decidable (_ ∧ _))

/-- A range of places of the other one. -/
def Within (r r' : Range) : Prop := r'.start ≤ r.start ∧ r.stop ≤ r'.stop

/-- No place is in both. -/
def Disjoint (r r' : Range) : Prop := ∀ x, r.Has x → ¬r'.Has x

theorem Disjoint.of_le {r r' : Range} (h : r.stop ≤ r'.start) : r.Disjoint r' := by
  intro x hx hx'
  exact absurd (Nat.lt_of_lt_of_le hx.2 h) (Nat.not_lt.mpr hx'.1)

theorem Disjoint.symm {r r' : Range} (h : r.Disjoint r') : r'.Disjoint r :=
  fun x hx hx' => h x hx' hx

end Range

/-- The ranges tile the places from `lo` up to `hi`. -/
def Tiles : ℕ → List Range → ℕ → Prop
  | lo, [], hi => lo = hi
  | lo, r :: rs, hi => r.start = lo ∧ Tiles r.stop rs hi

variable {lo mid hi : ℕ} {rs rs' : List Range}

theorem Tiles.le (h : Tiles lo rs hi) : lo ≤ hi := by
  induction rs generalizing lo with
  | nil => exact Nat.le_of_eq h
  | cons r rs ih =>
      obtain ⟨hstart, hrest⟩ := h
      have := ih hrest
      unfold Range.stop at this
      omega

theorem Tiles.append (h : Tiles lo rs mid) (h' : Tiles mid rs' hi) : Tiles lo (rs ++ rs') hi := by
  induction rs generalizing lo with
  | nil =>
      cases (h : lo = mid)
      exact h'
  | cons r rs ih => exact ⟨h.1, ih h.2⟩

theorem Tiles.split (h : Tiles lo (rs ++ rs') hi) : ∃ mid, Tiles lo rs mid ∧ Tiles mid rs' hi := by
  induction rs generalizing lo with
  | nil => exact ⟨lo, rfl, h⟩
  | cons r rs ih =>
      obtain ⟨mid, hrs, hrs'⟩ := ih h.2
      exact ⟨mid, ⟨h.1, hrs⟩, hrs'⟩

/-- Every range lies in the interval. -/
theorem Tiles.within (h : Tiles lo rs hi) {r : Range} (hr : r ∈ rs) : lo ≤ r.start ∧ r.stop ≤ hi := by
  induction rs generalizing lo with
  | nil => cases hr
  | cons r' rs ih =>
      obtain ⟨hstart, hrest⟩ := h
      rcases List.mem_cons.mp hr with rfl | hr
      · exact ⟨Nat.le_of_eq hstart.symm, hrest.le⟩
      · obtain ⟨hlo, hhi⟩ := ih hrest hr
        unfold Range.stop at hlo
        exact ⟨by omega, hhi⟩

theorem Tiles.sum_len (h : Tiles lo rs hi) :
    lo + (rs.map (·.len)).sum = hi := by
  induction rs generalizing lo with
  | nil => exact h
  | cons r rs ih =>
      have := ih h.2
      unfold Range.stop at this
      rw [List.map_cons, List.sum_cons, ← h.1]
      omega

theorem Tiles.pairwise_disjoint (h : Tiles lo rs hi) : rs.Pairwise Range.Disjoint := by
  induction rs generalizing lo with
  | nil => exact .nil
  | cons r rs ih =>
      exact .cons (fun r' hr' => .of_le (h.2.within hr').1) (ih h.2)

theorem Tiles.exists_has (h : Tiles lo rs hi) {x : ℕ} (hlo : lo ≤ x) (hhi : x < hi) :
    ∃ r ∈ rs, r.Has x := by
  induction rs generalizing lo with
  | nil =>
      cases (h : lo = hi)
      omega
  | cons r rs ih =>
      by_cases hx : x < r.stop
      · exact ⟨r, List.mem_cons_self, by rw [h.1]; exact hlo, hx⟩
      · obtain ⟨r', hr', hhas⟩ := ih h.2 (Nat.le_of_not_lt hx)
        exact ⟨r', List.mem_cons_of_mem r hr', hhas⟩

/-- Ranges that each start where the one before ends. -/
theorem tiles_map_range (start len : ℕ → ℕ) (n : ℕ)
    (hnext : ∀ i < n, start (i + 1) = start i + len i) :
    Tiles (start 0) ((List.range n).map fun i => ⟨start i, len i⟩) (start n) := by
  induction n with
  | zero => rfl
  | succ n ih =>
      rw [List.range_succ, List.map_append]
      refine (ih fun i hi => hnext i (Nat.lt_succ_of_lt hi)).append ⟨rfl, ?_⟩
      exact (hnext n (Nat.lt_succ_self n)).symm

/-- So they have to. -/
theorem Tiles.start_succ {start len : ℕ → ℕ} {n i : ℕ}
    (h : Tiles lo ((List.range n).map fun i => ⟨start i, len i⟩) hi) (hin : i + 1 < n) :
    start (i + 1) = start i + len i := by
  obtain ⟨k, rfl⟩ : ∃ k, n = i + (k + 2) := ⟨n - i - 2, by omega⟩
  rw [List.range_add, List.map_append] at h
  obtain ⟨mid, _, hrest⟩ := h.split
  rw [List.range_succ_eq_map, List.range_succ_eq_map] at hrest
  exact hrest.2.1

end Tiling
