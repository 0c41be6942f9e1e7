/-
Binary heaps in a list.

`pushHeap` and `popHeap` are the usual array algorithms behind `std::push_heap` and
`std::pop_heap`: the element at `i` has its children at `2 * i + 1` and `2 * i + 2`,
a push sifts the last element up while its parent is less, and a pop swaps the
first element to the end and sifts its replacement down.  "Less" is a comparison
the caller passes at every call, so nothing ties two calls to one order.

Two families of facts follow.  Whatever the comparison is, both algorithms only
permute the list.  When the comparison is a strict weak order, each restores the
heap order its start has up to the element it moves, and the first element of a
heap is not less than any other.
-/
import Mathlib.Data.List.Perm.Basic
import Mathlib.Order.Lattice

namespace ListHeap

variable {β : Type} (comp : β → β → Bool)

/-- The index above `i`. -/
def parent (i : Nat) : Nat := (i - 1) / 2

/-- Exchange the elements at `i` and `j`. -/
def swap (l : List β) (i j : Nat) : List β :=
  match l[i]?, l[j]? with
  | some a, some b => (l.set i b).set j a
  | _, _ => l

/-- Move the element at `i` up while its parent is less. -/
def siftUp : Nat → List β → Nat → List β
  | 0, l, _ => l
  | fuel + 1, l, i =>
    if i = 0 then l
    else match l[parent i]?, l[i]? with
      | some p, some x =>
        if comp p x then siftUp fuel (swap l i (parent i)) (parent i) else l
      | _, _ => l

/-- The child of `i` the other one is not greater than. -/
def greaterChild (l : List β) (i : Nat) : Option Nat :=
  match l[2 * i + 1]?, l[2 * i + 2]? with
  | none, _ => none
  | some _, none => some (2 * i + 1)
  | some a, some b => if comp a b then some (2 * i + 2) else some (2 * i + 1)

/-- Move the element at `i` down while it is less than its greater child. -/
def siftDown : Nat → List β → Nat → List β
  | 0, l, _ => l
  | fuel + 1, l, i =>
    match greaterChild comp l i with
    | none => l
    | some c =>
      match l[i]?, l[c]? with
      | some x, some y => if comp x y then siftDown fuel (swap l i c) c else l
      | _, _ => l

/-- `std::push_heap`: the last element joins the heap before it. -/
def pushHeap (l : List β) : List β := siftUp comp l.length l (l.length - 1)

/-- `std::pop_heap`: the first element goes to the end, the rest is a heap again. -/
def popHeap : List β → List β
  | [] => []
  | x :: xs =>
    match xs.getLast? with
    | none => [x]
    | some z => siftDown comp xs.length (z :: xs.dropLast) 0 ++ [x]

/-- No element is greater than the one above it. -/
def Ordered (l : List β) : Prop :=
  ∀ i a b, 0 < i → l[parent i]? = some a → l[i]? = some b → comp a b = false

/-- A comparison `std::push_heap` may be called with. -/
structure StrictWeak : Prop where
  asymm : ∀ a b, comp a b = true → comp b a = false
  negTrans : ∀ a b c, comp a b = false → comp b c = false → comp a c = false

/-- Comparing by a rank, the least rank being the greatest element. -/
theorem strictWeak_of_rank {γ : Type} [LinearOrder γ] (rank : β → γ)
    (h : ∀ a b, comp a b = true ↔ rank b < rank a) : StrictWeak comp where
  asymm a b hab := by
    have hlt := (h a b).mp hab
    exact Bool.eq_false_iff.mpr fun hba => lt_asymm hlt ((h b a).mp hba)
  negTrans a b c hab hbc := by
    have hab' : rank a ≤ rank b := le_of_not_gt fun hc => by simp [(h a b).mpr hc] at hab
    have hbc' : rank b ≤ rank c := le_of_not_gt fun hc => by simp [(h b c).mpr hc] at hbc
    exact Bool.eq_false_iff.mpr fun hac => (hab'.trans hbc').not_gt ((h a c).mp hac)

/-! ### Both algorithms permute -/

theorem swap_perm (l : List β) (i j : Nat) : (swap l i j).Perm l := by
  unfold swap
  split
  · rename_i a b ha hb
    obtain ⟨hi, rfl⟩ := List.getElem?_eq_some_iff.mp ha
    obtain ⟨hj, rfl⟩ := List.getElem?_eq_some_iff.mp hb
    exact List.set_set_perm hi hj
  · exact .refl _

theorem siftUp_perm : ∀ (fuel : Nat) (l : List β) (i : Nat), (siftUp comp fuel l i).Perm l := by
  intro fuel
  induction fuel with
  | zero => intro l i; exact .refl _
  | succ fuel ih =>
      intro l i
      unfold siftUp
      split
      · exact .refl _
      · split
        · split
          · exact (ih _ _).trans (swap_perm l _ _)
          · exact .refl _
        · exact .refl _

theorem siftDown_perm : ∀ (fuel : Nat) (l : List β) (i : Nat),
    (siftDown comp fuel l i).Perm l := by
  intro fuel
  induction fuel with
  | zero => intro l i; exact .refl _
  | succ fuel ih =>
      intro l i
      unfold siftDown
      split
      · exact .refl _
      · split
        · split
          · exact (ih _ _).trans (swap_perm l _ _)
          · exact .refl _
        · exact .refl _

theorem pushHeap_perm (l : List β) : (pushHeap comp l).Perm l := siftUp_perm comp _ _ _

/-- A pop ends with the first element, and the elements before it are the others. -/
theorem popHeap_cons (x : β) (xs : List β) :
    ∃ l, popHeap comp (x :: xs) = l ++ [x] ∧ l.Perm xs := by
  rcases List.eq_nil_or_concat' xs with rfl | ⟨ys, z, rfl⟩
  · exact ⟨[], rfl, .refl _⟩
  · refine ⟨siftDown comp (ys ++ [z]).length (z :: ys) 0, by simp [popHeap], ?_⟩
    exact (siftDown_perm comp _ _ _).trans (List.perm_append_singleton z ys).symm

/-! ### Renaming the elements

What the comparison does not see takes no part in either algorithm.
-/

section Map

variable {γ : Type} {comp} {comp' : γ → γ → Bool} {f : β → γ}

theorem swap_map (l : List β) (i j : Nat) : swap (l.map f) i j = (swap l i j).map f := by
  unfold swap
  cases hi : l[i]? <;> cases hj : l[j]? <;> simp [hi, hj, List.map_set]

theorem siftUp_map (h : ∀ a b, comp' (f a) (f b) = comp a b) : ∀ (fuel : Nat) (l : List β)
    (i : Nat), siftUp comp' fuel (l.map f) i = (siftUp comp fuel l i).map f := by
  intro fuel
  induction fuel with
  | zero => intro l i; rfl
  | succ fuel ih =>
      intro l i
      unfold siftUp
      by_cases hi : i = 0
      · rw [if_pos hi, if_pos hi]
      · rw [if_neg hi, if_neg hi]
        cases hp : l[parent i]? <;> cases hx : l[i]? <;> simp only [List.getElem?_map, hp, hx,
          Option.map_some, Option.map_none, h]
        split
        · rw [swap_map, ih]
        · rfl

theorem greaterChild_map (h : ∀ a b, comp' (f a) (f b) = comp a b) (l : List β) (i : Nat) :
    greaterChild comp' (l.map f) i = greaterChild comp l i := by
  unfold greaterChild
  cases ha : l[2 * i + 1]? <;> cases hb : l[2 * i + 2]? <;> simp [ha, hb, h]

theorem siftDown_map (h : ∀ a b, comp' (f a) (f b) = comp a b) : ∀ (fuel : Nat) (l : List β)
    (i : Nat), siftDown comp' fuel (l.map f) i = (siftDown comp fuel l i).map f := by
  intro fuel
  induction fuel with
  | zero => intro l i; rfl
  | succ fuel ih =>
      intro l i
      unfold siftDown
      rw [greaterChild_map h]
      cases hc : greaterChild comp l i with
      | none => rfl
      | some c =>
          cases hx : l[i]? <;> cases hy : l[c]? <;> simp only [List.getElem?_map, hx, hy,
            Option.map_some, Option.map_none, h]
          split
          · rw [swap_map, ih]
          · rfl

theorem pushHeap_map (h : ∀ a b, comp' (f a) (f b) = comp a b) (l : List β) :
    pushHeap comp' (l.map f) = (pushHeap comp l).map f := by
  unfold pushHeap
  rw [List.length_map, siftUp_map h]

theorem popHeap_map (h : ∀ a b, comp' (f a) (f b) = comp a b) (l : List β) :
    popHeap comp' (l.map f) = (popHeap comp l).map f := by
  cases l with
  | nil => rfl
  | cons x xs =>
      rcases List.eq_nil_or_concat' xs with rfl | ⟨ys, z, rfl⟩
      · rfl
      · have := siftDown_map h (ys ++ [z]).length (z :: ys) 0
        simp only [List.length_append, List.length_cons, List.length_nil, List.map_cons] at this
        simp [popHeap, this]

end Map

/-! ### What a swap leaves where -/

theorem getElem?_swap {l : List β} {i j : Nat} (hi : i < l.length) (hj : j < l.length)
    (k : Nat) : (swap l i j)[k]? = if k = j then l[i]? else if k = i then l[j]? else l[k]? := by
  unfold swap
  rw [List.getElem?_eq_getElem hi, List.getElem?_eq_getElem hj]
  simp only [List.getElem?_set, List.length_set]
  by_cases hkj : k = j
  · simp [hkj, hj]
  · by_cases hki : k = i
    · have hij : j ≠ i := fun hc => hkj (hki.trans hc.symm)
      simp [hki, hi, hij, Ne.symm hij]
    · simp [hkj, hki, Ne.symm hkj, Ne.symm hki]

@[simp] theorem length_swap (l : List β) (i j : Nat) : (swap l i j).length = l.length :=
  (swap_perm l i j).length_eq

theorem parent_lt {i : Nat} (h : 0 < i) : parent i < i := by unfold parent; omega

theorem child_cases {c i : Nat} (hc : 0 < c) (h : parent c = i) : c = 2 * i + 1 ∨ c = 2 * i + 2 := by
  unfold parent at h; omega

/-! ### Sifting up restores the order -/

/-- In order but for the element at `j`, whose children are below its parent too. -/
structure UpOrder (l : List β) (j : Nat) : Prop where
  except : ∀ i a b, 0 < i → i ≠ j → l[parent i]? = some a → l[i]? = some b → comp a b = false
  grand : 0 < j → ∀ c a b, 0 < c → parent c = j → l[parent j]? = some a → l[c]? = some b →
    comp a b = false

theorem UpOrder.move (hc : StrictWeak comp) {l : List β} {j : Nat} {p x : β}
    (h : UpOrder comp l j) (hj0 : 0 < j) (hp : l[parent j]? = some p) (hx : l[j]? = some x)
    (hlt : comp p x = true) : UpOrder comp (swap l j (parent j)) (parent j) := by
  have hj : j < l.length := (List.getElem?_eq_some_iff.mp hx).1
  have hpj : parent j < j := parent_lt hj0
  have hget := getElem?_swap hj (Nat.lt_trans hpj hj)
  refine ⟨?_, ?_⟩
  · intro i a b hi0 hij ha hb
    have hpi := parent_lt hi0
    rw [hget, if_neg hij] at hb
    rw [hget] at ha
    by_cases hi : i = j
    · -- the moved element now stands over its former parent
      subst hi
      rw [if_pos rfl, hx] at ha
      rw [if_pos rfl, hp] at hb
      cases ha; cases hb
      exact hc.asymm _ _ hlt
    · rw [if_neg hi] at hb
      by_cases h1 : parent i = parent j
      · -- a sibling of the moved element
        rw [if_pos h1, hx] at ha
        cases ha
        exact hc.negTrans _ _ _ (hc.asymm _ _ hlt)
          (h.except i p b hi0 hi (by rw [h1, hp]) hb)
      · rw [if_neg h1] at ha
        by_cases h2 : parent i = j
        · rw [if_pos h2] at ha
          exact h.grand hj0 i a b hi0 h2 ha hb
        · rw [if_neg h2] at ha
          exact h.except i a b hi0 hi ha hb
  · intro hp0 c a b hc0 hcp ha hb
    have hpp := parent_lt hp0
    rw [hget, if_neg (by omega), if_neg (by omega)] at ha
    have hup : comp a p = false := h.except (parent j) a p hp0 (by omega) ha hp
    rw [hget, if_neg (by have := parent_lt hc0; omega)] at hb
    by_cases hcj : c = j
    · rw [if_pos hcj, hp] at hb
      cases hb
      exact hup
    · rw [if_neg hcj] at hb
      exact hc.negTrans _ _ _ hup (h.except c p b hc0 hcj (by rw [hcp, hp]) hb)

theorem UpOrder.finish {l : List β} {j : Nat} (h : UpOrder comp l j)
    (hj : 0 < j → ∀ a b, l[parent j]? = some a → l[j]? = some b → comp a b = false) :
    Ordered comp l := by
  intro i a b hi0 ha hb
  by_cases hij : i = j
  · subst hij; exact hj hi0 a b ha hb
  · exact h.except i a b hi0 hij ha hb

theorem siftUp_ordered (hc : StrictWeak comp) : ∀ (fuel : Nat) (l : List β) (j : Nat),
    j ≤ fuel → UpOrder comp l j → Ordered comp (siftUp comp fuel l j) := by
  intro fuel
  induction fuel with
  | zero =>
      intro l j hj h
      exact h.finish comp (fun h0 => absurd h0 (by omega))
  | succ fuel ih =>
      intro l j hj h
      unfold siftUp
      by_cases hj0 : j = 0
      · rw [if_pos hj0]
        exact h.finish comp (fun h0 => absurd h0 (by omega))
      · rw [if_neg hj0]
        have hpos : 0 < j := Nat.pos_of_ne_zero hj0
        split
        · rename_i p x hp hx
          by_cases hlt : comp p x = true
          · rw [if_pos hlt]
            exact ih _ _ (by have := parent_lt hpos; omega) (h.move comp hc hpos hp hx hlt)
          · rw [if_neg hlt]
            refine h.finish comp fun _ a b ha hb => ?_
            rw [hp] at ha
            rw [hx] at hb
            cases ha; cases hb
            exact Bool.eq_false_iff.mpr hlt
        · rename_i hnone
          exact h.finish comp fun _ a b ha hb => absurd hb (hnone a b ha)

/-- **A push keeps the heap order.** -/
theorem pushHeap_ordered (hc : StrictWeak comp) {l : List β} (x : β) (h : Ordered comp l) :
    Ordered comp (pushHeap comp (l ++ [x])) := by
  refine siftUp_ordered comp hc _ _ _ (by omega) ?_
  have hlen : (l ++ [x]).length - 1 = l.length := by simp
  rw [hlen]
  refine ⟨?_, ?_⟩
  · intro i a b hi0 hil ha hb
    have hi : i < (l ++ [x]).length := (List.getElem?_eq_some_iff.mp hb).1
    have hi' : i < l.length := by simp at hi; omega
    have hpi := parent_lt hi0
    rw [List.getElem?_append_left (by omega)] at ha hb
    exact h i a b hi0 ha hb
  · intro _ c a b hc0 hcl _ hb
    have hc : c < (l ++ [x]).length := (List.getElem?_eq_some_iff.mp hb).1
    have := parent_lt hc0
    simp at hc
    omega

/-! ### Sifting down restores the order -/

/-- In order but for the element at `j`, whose children are below its parent too. -/
structure DownOrder (l : List β) (j : Nat) : Prop where
  except : ∀ i a b, 0 < i → parent i ≠ j → l[parent i]? = some a → l[i]? = some b →
    comp a b = false
  grand : 0 < j → ∀ c a b, 0 < c → parent c = j → l[parent j]? = some a → l[c]? = some b →
    comp a b = false

theorem greaterChild_spec (hc : StrictWeak comp) {l : List β} {i c : Nat}
    (h : greaterChild comp l i = some c) : 0 < c ∧ parent c = i ∧
      ∃ y, l[c]? = some y ∧
        ∀ d b, 0 < d → parent d = i → l[d]? = some b → comp y b = false := by
  have hirr : ∀ a, comp a a = false := fun a =>
    Bool.eq_false_iff.mpr fun ha => Bool.eq_false_iff.mp (hc.asymm a a ha) ha
  unfold greaterChild at h
  split at h
  · cases h
  · rename_i a ha hb
    cases h
    refine ⟨by omega, by unfold parent; omega, a, ha, fun d b hd0 hd hb' => ?_⟩
    rcases child_cases hd0 hd with rfl | rfl
    · rw [ha] at hb'; cases hb'; exact hirr _
    · rw [hb] at hb'; cases hb'
  · rename_i a b ha hb
    by_cases hab : comp a b = true
    · rw [if_pos hab] at h
      cases h
      refine ⟨by omega, by unfold parent; omega, b, hb, fun d e hd0 hd he => ?_⟩
      rcases child_cases hd0 hd with rfl | rfl
      · rw [ha] at he; cases he; exact hc.asymm _ _ hab
      · rw [hb] at he; cases he; exact hirr _
    · rw [if_neg hab] at h
      cases h
      refine ⟨by omega, by unfold parent; omega, a, ha, fun d e hd0 hd he => ?_⟩
      rcases child_cases hd0 hd with rfl | rfl
      · rw [ha] at he; cases he; exact hirr _
      · rw [hb] at he; cases he; exact Bool.eq_false_iff.mpr hab

theorem greaterChild_none {l : List β} {i : Nat} (h : greaterChild comp l i = none) :
    ∀ d b, 0 < d → parent d = i → l[d]? ≠ some b := by
  have h1 : l[2 * i + 1]? = none := by
    unfold greaterChild at h
    split at h
    · assumption
    · cases h
    · split at h <;> cases h
  have hlen : l.length ≤ 2 * i + 1 := List.getElem?_eq_none_iff.mp h1
  intro d b hd0 hd hb
  have hd' : d < l.length := (List.getElem?_eq_some_iff.mp hb).1
  rcases child_cases hd0 hd with rfl | rfl <;> omega

theorem DownOrder.move (hc : StrictWeak comp) {l : List β} {j c : Nat} {x y : β}
    (h : DownOrder comp l j) (hgc : greaterChild comp l j = some c) (hx : l[j]? = some x)
    (hy : l[c]? = some y) (hlt : comp x y = true) : DownOrder comp (swap l j c) c := by
  obtain ⟨hc0, hcp, y', hy', hmax⟩ := greaterChild_spec comp hc hgc
  rw [hy] at hy'
  cases hy'
  have hj : j < l.length := (List.getElem?_eq_some_iff.mp hx).1
  have hcl : c < l.length := (List.getElem?_eq_some_iff.mp hy).1
  have hjc : j < c := hcp ▸ parent_lt hc0
  have hget := getElem?_swap hj hcl
  refine ⟨?_, ?_⟩
  · intro i a b hi0 hpc ha hb
    rw [hget, if_neg hpc] at ha
    rw [hget] at hb
    by_cases hpj : parent i = j
    · rw [if_pos hpj, hy] at ha
      cases ha
      by_cases hic : i = c
      · rw [if_pos hic, hx] at hb
        cases hb
        exact hc.asymm _ _ hlt
      · rw [if_neg hic, if_neg (by have := parent_lt hi0; omega)] at hb
        exact hmax i b hi0 hpj hb
    · rw [if_neg hpj] at ha
      have hic : i ≠ c := fun hic => hpj (hic ▸ hcp)
      rw [if_neg hic] at hb
      by_cases hij : i = j
      · -- the child that moved up stands below the parent of the hole
        rw [if_pos hij, hy] at hb
        cases hb
        exact h.grand (hij ▸ hi0) c a y hc0 hcp (hij ▸ ha) hy
      · rw [if_neg hij] at hb
        exact h.except i a b hi0 hpj ha hb
  · intro _ d a b hd0 hdc ha hb
    have hdgt := parent_lt hd0
    rw [hcp, hget, if_neg (by omega), if_pos rfl, hy] at ha
    cases ha
    rw [hget, if_neg (by omega), if_neg (by omega)] at hb
    exact h.except d y b hd0 (by omega) (by rw [hdc, hy]) hb

theorem DownOrder.finish {l : List β} {j : Nat} (h : DownOrder comp l j)
    (hj : ∀ c a b, 0 < c → parent c = j → l[j]? = some a → l[c]? = some b → comp a b = false) :
    Ordered comp l := by
  intro i a b hi0 ha hb
  by_cases hpj : parent i = j
  · exact hj i a b hi0 hpj (hpj ▸ ha) hb
  · exact h.except i a b hi0 hpj ha hb

theorem siftDown_ordered (hc : StrictWeak comp) : ∀ (fuel : Nat) (l : List β) (j : Nat),
    l.length ≤ j + fuel → DownOrder comp l j → Ordered comp (siftDown comp fuel l j) := by
  intro fuel
  induction fuel with
  | zero =>
      intro l j hj h
      refine h.finish comp fun c a b hc0 hcp _ hb => ?_
      have hcl : c < l.length := (List.getElem?_eq_some_iff.mp hb).1
      have := parent_lt hc0
      omega
  | succ fuel ih =>
      intro l j hj h
      unfold siftDown
      split
      · rename_i hnone
        exact h.finish comp fun c a b hc0 hcp _ hb => absurd hb (greaterChild_none comp hnone c b hc0 hcp)
      · rename_i c hgc
        obtain ⟨hc0, hcp, y', hy', hmax⟩ := greaterChild_spec comp hc hgc
        have hjc : j < c := hcp ▸ parent_lt hc0
        split
        · rename_i x y hx hy
          obtain rfl : y = y' := Option.some.inj (hy.symm.trans hy')
          by_cases hlt : comp x y = true
          · rw [if_pos hlt]
            exact ih _ _ (by rw [length_swap]; omega) (h.move comp hc hgc hx hy hlt)
          · rw [if_neg hlt]
            refine h.finish comp fun d a b hd0 hd ha hb => ?_
            rw [hx] at ha
            cases ha
            exact hc.negTrans _ _ _ (Bool.eq_false_iff.mpr hlt) (hmax d b hd0 hd hb)
        · rename_i hnone
          have hcl : c < l.length := (List.getElem?_eq_some_iff.mp hy').1
          exact absurd hy' (hnone _ _ (List.getElem?_eq_getElem (by omega)))

/-- **A pop keeps the heap order**, of the elements that stay. -/
theorem popHeap_ordered (hc : StrictWeak comp) {x : β} {xs : List β}
    (h : Ordered comp (x :: xs)) : Ordered comp (popHeap comp (x :: xs)).dropLast := by
  rcases List.eq_nil_or_concat' xs with rfl | ⟨ys, z, rfl⟩
  · intro i a b _ _ hb
    simp [popHeap] at hb
  · have heq : (popHeap comp (x :: (ys ++ [z]))).dropLast
        = siftDown comp (ys ++ [z]).length (z :: ys) 0 := by simp [popHeap]
    rw [heq]
    refine siftDown_ordered comp hc _ _ _ (by simp) ⟨?_, fun h0 => absurd h0 (by omega)⟩
    intro i a b hi0 hpi ha hb
    -- off the root, the shortened list reads as the old one
    have hold : ∀ k e, 0 < k → (z :: ys)[k]? = some e → (x :: (ys ++ [z]))[k]? = some e := by
      intro k e hk he
      obtain ⟨k, rfl⟩ : ∃ m, k = m + 1 := ⟨k - 1, by omega⟩
      simp only [List.getElem?_cons_succ] at he ⊢
      rw [List.getElem?_append_left (List.getElem?_eq_some_iff.mp he).1]
      exact he
    exact h i a b hi0 (hold _ _ (Nat.pos_of_ne_zero hpi) ha) (hold _ _ hi0 hb)

/-- **The first element of a heap is not less than any other.** -/
theorem head_max (hc : StrictWeak comp) {x : β} {xs : List β} (h : Ordered comp (x :: xs)) :
    ∀ y ∈ x :: xs, comp x y = false := by
  have key : ∀ (i : Nat) (y : β), (x :: xs)[i]? = some y → comp x y = false := by
    intro i
    induction i using Nat.strongRecOn with
    | ind i ih =>
        intro y hy
        by_cases hi : i = 0
        · subst hi
          cases hy
          exact Bool.eq_false_iff.mpr fun ha => Bool.eq_false_iff.mp (hc.asymm _ _ ha) ha
        · have hpos : 0 < i := Nat.pos_of_ne_zero hi
          have hlt := parent_lt hpos
          have hil : i < (x :: xs).length := (List.getElem?_eq_some_iff.mp hy).1
          have hp := List.getElem?_eq_getElem (show parent i < (x :: xs).length by omega)
          exact hc.negTrans _ _ _ (ih _ hlt _ hp) (h i _ _ hpos hp hy)
  intro y hy
  obtain ⟨i, hi⟩ := List.mem_iff_getElem?.mp hy
  exact key i y hi

end ListHeap
