/-
`TopkCompressor` sends the greatest elements.

The loop goes through the elements once, with a heap of `k` pairs in the buffer that is sent.
The first `k` elements join it; from then on an element is compared with the top of the heap,
and takes its place if it is greater.  Elements are compared by their magnitude.

The heap has the least of its pairs on top.  `Greatest` is what the loop keeps: the heap is in
order, no two of its pairs are of one element, and no element outside is greater than the least
one inside.  An element outside either was not offered yet, was turned away by a top that was no
less, or left the heap as its top for something greater; in each case the top has only grown
since.

Ties are broken by the order of the elements, in the way the functions of the standard library
leave a heap.  The result does not depend on it, and only says that what was not sent is not
greater.
-/
import DeepInc.Proofs.Compressor.Sparse

namespace DeepInc.Compressor

open Sparse

variable {w : ℕ} {K : Type} [AddGroup K] [LinearOrder K]

namespace Topk

theorem strictWeak_comp {ι : Type} : ListHeap.StrictWeak (comp : ι × K → ι × K → Bool) :=
  ListHeap.strictWeak_of_rank comp (fun p : ι × K => |p.2|) fun _ _ => decide_eq_true_iff

/-- `comp` of two pairs fails when the first is the less one. -/
theorem abs_le_of_comp {ι : Type} {a b : ι × K} (h : comp a b = false) : |a.2| ≤ |b.2| :=
  not_lt.mp (of_decide_eq_false h)

/--
The heap after `i` elements, as far as which of them it holds: they are in heap order and
no two of them are one, and what is not among them is no greater than any of them.
-/
structure Greatest (k : ℕ) (src : Mem K) (i : ℕ) (heap : List (ℕ × K)) : Prop where
  ordered : ListHeap.Ordered comp heap
  nodup : (heap.map (·.1)).Nodup
  rest : ∀ j < i, j ∉ heap.map (·.1) → k ≤ i ∧ ∀ p ∈ heap, |src j| ≤ |p.2|

section Offer

variable {k i : ℕ} {src : Mem K} {heap : List (ℕ × K)}

omit [AddGroup K] [LinearOrder K] in
/-- Only earlier elements are in the heap. -/
theorem Holds.notMem (h : Holds id k src i heap) : i ∉ heap.map (·.1) := by
  intro hmem
  obtain ⟨p, hp, hpi⟩ := List.mem_map.mp hmem
  obtain ⟨j, hj, rfl⟩ := h.elements p hp
  have : j = i := hpi
  omega

/-- An element joins a heap it was not in. -/
theorem nodup_push {l : List (ℕ × K)} (hl : (l.map (·.1)).Nodup) (hi : i ∉ l.map (·.1)) :
    ((ListHeap.pushHeap comp (l ++ [(i, src i)])).map (·.1)).Nodup := by
  rw [((ListHeap.pushHeap_perm _ _).map _).nodup_iff, List.map_append]
  exact (List.perm_append_singleton i _).nodup_iff.mpr (List.nodup_cons.mpr ⟨hi, hl⟩)

theorem mem_push {l : List (ℕ × K)} {p : ℕ × K} :
    p ∈ ListHeap.pushHeap comp (l ++ [(i, src i)]) ↔ p ∈ l ∨ p = (i, src i) := by
  rw [(ListHeap.pushHeap_perm _ _).mem_iff, List.mem_append, List.mem_singleton]

theorem mem_indices_push {l : List (ℕ × K)} {j : ℕ} :
    j ∈ (ListHeap.pushHeap comp (l ++ [(i, src i)])).map (·.1) ↔ j ∈ l.map (·.1) ∨ j = i := by
  rw [((ListHeap.pushHeap_perm _ _).map _).mem_iff, List.map_append, List.mem_append]
  simp

/-- While the heap is not full every element joins it. -/
theorem Greatest.push (h : Greatest k src i heap) (hheap : Holds id k src i heap) (hi : i < k) :
    Greatest k src (i + 1) (ListHeap.pushHeap comp (heap ++ [(i, src i)])) where
  ordered := ListHeap.pushHeap_ordered comp strictWeak_comp _ h.ordered
  nodup := nodup_push h.nodup hheap.notMem
  rest j hj hmem := by
    rw [mem_indices_push, not_or] at hmem
    have hk := (h.rest j (by omega) hmem.1).1
    omega

/-- An element greater than the top takes its place. -/
theorem Greatest.replace {top : ℕ × K} {others : List (ℕ × K)}
    (h : Greatest k src i (top :: others)) (hheap : Holds id k src i (top :: others)) (hi : k ≤ i)
    (hlt : |top.2| < |src i|) : Greatest k src (i + 1)
      (ListHeap.pushHeap comp ((ListHeap.popHeap comp (top :: others)).dropLast ++ [(i, src i)])) := by
  obtain ⟨l, hpop, hperm⟩ := ListHeap.popHeap_cons comp top others
  have hordered := ListHeap.popHeap_ordered comp strictWeak_comp h.ordered
  rw [hpop, List.dropLast_concat] at hordered ⊢
  have hindices := hperm.map (·.1)
  have hnodup := h.nodup
  have hfresh := hheap.notMem
  rw [List.map_cons] at hnodup hfresh
  obtain ⟨-, hnodup⟩ := List.nodup_cons.mp hnodup
  have htop : ∀ p ∈ top :: others, |top.2| ≤ |p.2| := fun p hp =>
    abs_le_of_comp (ListHeap.head_max comp strictWeak_comp h.ordered p hp)
  -- what is at most the old top is at most everything in the new heap
  have hbound : ∀ x : K, |x| ≤ |top.2| →
      ∀ p ∈ ListHeap.pushHeap comp (l ++ [(i, src i)]), |x| ≤ |p.2| := by
    intro x hx p hp
    rcases mem_push.mp hp with hp | rfl
    · exact hx.trans (htop p (List.mem_cons_of_mem _ (hperm.mem_iff.mp hp)))
    · exact hx.trans hlt.le
  refine ⟨ListHeap.pushHeap_ordered comp strictWeak_comp _ hordered, ?_, fun j hj hmem => ?_⟩
  · refine nodup_push (hindices.nodup_iff.mpr hnodup) ?_
    rw [hindices.mem_iff]
    exact fun hmem => hfresh (List.mem_cons_of_mem _ hmem)
  · rw [mem_indices_push, not_or, hindices.mem_iff] at hmem
    refine ⟨by omega, ?_⟩
    by_cases hold : j ∈ (top :: others).map (·.1)
    · obtain ⟨p, hp, rfl⟩ := List.mem_map.mp hold
      obtain ⟨j, -, rfl⟩ := hheap.elements p hp
      rcases List.mem_cons.mp hp with heq | hp
      · refine hbound (src j) ?_
        rw [← heq]
      · exact absurd (List.mem_map_of_mem hp) hmem.1
    · exact hbound (src j) ((h.rest j (by omega) hold).2 top List.mem_cons_self)

/-- An element no greater than the top stays out. -/
theorem Greatest.keep {top : ℕ × K} {others : List (ℕ × K)}
    (h : Greatest k src i (top :: others)) (hi : k ≤ i) (hle : |src i| ≤ |top.2|) :
    Greatest k src (i + 1) (top :: others) where
  ordered := h.ordered
  nodup := h.nodup
  rest j hj hmem := by
    refine ⟨by omega, fun p hp => ?_⟩
    by_cases hji : j = i
    · rw [hji]
      exact hle.trans
        (abs_le_of_comp (ListHeap.head_max comp strictWeak_comp h.ordered p hp))
    · exact (h.rest j (by omega) hmem).2 p hp

/-- What one step of the loop preserves. -/
theorem Greatest.offer (h : Greatest k src i heap) (hheap : Holds id k src i heap) (hk : 1 ≤ k) :
    Greatest k src (i + 1) (offer id k src heap i) := by
  unfold Topk.offer
  by_cases hi : i < k
  · rw [if_pos hi]
    exact h.push hheap hi
  · rw [if_neg hi]
    have hlength := hheap.length
    cases heap with
    | nil =>
        rw [List.length_nil] at hlength
        omega
    | cons top others =>
        simp only
        by_cases hlt : |top.2| < |src i|
        · rw [if_pos hlt]
          exact h.replace hheap (by omega) hlt
        · rw [if_neg hlt]
          exact h.keep (by omega) (not_lt.mp hlt)

theorem greatest_heap (hk : 1 ≤ k) (src : Mem K) (len : ℕ) :
    Greatest k src len (Topk.heap id k src len) := by
  induction len with
  | zero =>
      refine ⟨fun i a b _ _ hb => ?_, List.nodup_nil, fun j hj => by omega⟩
      cases hb
  | succ len ih =>
      rw [heap_succ]
      exact ih.offer (holds_heap id k src len) hk

end Offer

end Topk

/--
**The pairs of `TopkCompressor` are the greatest elements**, at their positions, with none of
them twice.

Among elements of one magnitude it is left open which of them are sent; none that stays behind
is greater than one that is sent.
-/
theorem topk_sends_greatest (dtype : DataType) (hdtype : dtype = .float32 ∨ dtype = .float64)
    {k len : ℕ} (hlen : len < 2 ^ 32) (hk₁ : 1 ≤ k) (hk : k ≤ len / 2) (src : Mem K)
    (buf : Mem (Cell (scalarBits dtype) K)) : ∃ data,
      Topk.compress k buf src len = .ok (data, k * sizeofPair (scalarBits dtype)) ∧
      (getPairs data k).length = k ∧
      ((getPairs data k).map (·.1)).Nodup ∧
      (∀ p ∈ getPairs data k, p.1.toNat < len ∧ p.2 = src p.1.toNat) ∧
      ∀ j < len, j ∉ (getPairs data k).map (fun p => p.1.toNat) →
        ∀ p ∈ getPairs data k, |src j| ≤ |p.2| := by
  have hfits : len ≤ 2 ^ scalarBits dtype := by
    rcases hdtype with rfl | rfl
    · exact hlen.le
    · exact hlen.le.trans (by decide)
  have hsel := Topk.selected_lt k src len
  have hlength := Topk.length_selected hk src
  have hgreatest := Topk.greatest_heap hk₁ src len
  refine ⟨_, Topk.compress_eq hk buf src, ?_⟩
  rw [getPairs_pairsOf buf hlength]
  refine ⟨by simp [pairsOf, hlength], ?_, fun p hp => ?_, fun j hj hmem p hp => ?_⟩
  · have hmap : (pairsOf (scalarBits dtype) src (Topk.selected k src len)).map (·.1) =
        (Topk.selected k src len).map (BitVec.ofNat _) := by simp [pairsOf]
    rw [hmap]
    refine hgreatest.nodup.map_on fun a ha b hb hab => ?_
    have := congrArg BitVec.toNat hab
    rwa [toNat_of_lt hfits (hsel a ha), toNat_of_lt hfits (hsel b hb)] at this
  · obtain ⟨j, hj, rfl⟩ := List.mem_map.mp hp
    rw [toNat_of_lt hfits (hsel j hj)]
    exact ⟨hsel j hj, rfl⟩
  · rw [mem_pairsOf hfits hsel] at hmem
    obtain ⟨i, hi, rfl⟩ := List.mem_map.mp hp
    obtain ⟨q, hq, rfl⟩ := List.mem_map.mp hi
    obtain ⟨i, -, rfl⟩ := (Topk.holds_heap id k src len).elements q hq
    exact (hgreatest.rest j hj hmem).2 _ hq

/-- Five elements with ties, two of which are sent. -/
theorem topk_sends_greatest_five : ∃ data : Mem (Cell 32 ℤ),
    Topk.compress 2 (fun _ => (0, 0)) (fun i => [3, -5, 5, 1, -3].getD i (0 : ℤ)) 5 =
        .ok (data, 2 * sizeofPair (scalarBits .float32)) ∧
      (getPairs data 2).length = 2 ∧ ((getPairs data 2).map (·.1)).Nodup ∧
      (∀ p ∈ getPairs data 2,
        p.1.toNat < 5 ∧ p.2 = [3, -5, 5, 1, -3].getD p.1.toNat (0 : ℤ)) ∧
      ∀ j < 5, j ∉ (getPairs data 2).map (fun p => p.1.toNat) →
        ∀ p ∈ getPairs data 2, |[3, -5, 5, 1, -3].getD j (0 : ℤ)| ≤ |p.2| :=
  topk_sends_greatest .float32 (.inl rfl) (by decide) (by decide) (by decide) _ _

end DeepInc.Compressor
