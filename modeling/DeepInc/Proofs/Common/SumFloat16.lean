/-
Which elements `_sum_float16` sums.

Halves are summed in vectors of eight where the build has the instructions, and one by one
otherwise.  The build decides which loops there are, but the processor decides whether the one
over the vectors is entered; the loop over the last elements starts where the vectors end in any
case, also on a processor that skips them.

The two builds agree on an element when one of the loops reaches it, and a loop reaches every
place at most once, so it does not matter in which order the places are written.  All four
functions of this form share that argument: `Bodies` says of two loop bodies that they put the
same value, eight at a time or one.
-/
import DeepInc.Common.SumFloat16
import DeepInc.Lib.Binary

namespace DeepInc.CpuReducer

/-! ### Addition of `float`

Two of the functions add their operands the other way round in the vector body.  Nothing else is
asked of the addition than that this makes no difference; in the model of `float` there is one
NaN, so that it holds of all patterns.
-/

section Float32

open Float.Model Float.Model.UnpackedFloat

theorem unpacked_add_comm (spec : Format) (x y : UnpackedFloat) :
    UnpackedFloat.add spec x y = UnpackedFloat.add spec y x := by
  have hsign : ∀ s t : Sign, (s == t) = (t == s) := fun s t => by
    cases s <;> cases t <;> rfl
  have heq : ∀ {s t : Sign}, (s == t) = true → s = t := fun {s t} h => by
    cases s <;> cases t <;> first | rfl | cases h
  cases x with
  | notANumber => cases y <;> rfl
  | infinity s =>
      cases y with
      | infinity t =>
          unfold UnpackedFloat.add
          simp only [hsign t s]
          split
          · rename_i h
            rw [heq h]
          · rfl
      | _ => rfl
  | zero s =>
      cases y with
      | zero t =>
          unfold UnpackedFloat.add
          simp only [hsign t s]
          split
          · rename_i h
            rw [heq h]
          · rfl
      | _ => rfl
  | finite s m e hm =>
      cases y with
      | finite t n f hn =>
          unfold UnpackedFloat.add
          simp only [Int.min_comm f e, Int.add_comm (t.apply _)]
      | _ => rfl

theorem float_add_comm (x y : Float32) : x + y = y + x :=
  congrArg (fun u => Float32.ofModel (.pack u)) (unpacked_add_comm .binary32 _ _)

end Float32

/-! ### The loops

The places one iteration writes are not written by any other.  So the loops leave `f` of what
was there in the places they reach, and what was there in all others.
-/

section Loops

variable {vector element : Mem (BitVec 16) → ℕ → Mem (BitVec 16)} {f : ℕ → BitVec 16 → BitVec 16}

/-- Both bodies put `f` of what was there: one at a place, the other at eight. -/
structure Bodies (vector element : Mem (BitVec 16) → ℕ → Mem (BitVec 16))
    (f : ℕ → BitVec 16 → BitVec 16) : Prop where
  vector_eq : ∀ m i, vector m i = storeu m i fun k => f (i + k) (m (i + k))
  element_eq : ∀ m i, element m i = Function.update m i (f i (m i))

theorem storeu_apply (m : Mem (BitVec 16)) (i j : ℕ) (f : ℕ → BitVec 16 → BitVec 16) :
    storeu m i (fun k => f (i + k) (m (i + k))) j =
      if i ≤ j ∧ j < i + 8 then f j (m j) else m j := by
  unfold storeu
  split
  · rename_i h
    simp only [Nat.add_sub_cancel' h.1]
  · rfl

/-- Each iteration reaches places no other has reached. -/
theorem vectorLoop_apply (h : Bodies vector element f) (len : ℕ) (m : Mem (BitVec 16)) (j : ℕ) :
    vectorLoop vector len m j = if j < len / 8 * 8 then f j (m j) else m j := by
  unfold vectorLoop
  generalize len / 8 = n
  induction n with
  | zero => rfl
  | succ n ih =>
      rw [List.range_succ, List.map_append, List.foldl_append, List.map_singleton,
        List.foldl_cons, List.foldl_nil, h.vector_eq, storeu_apply, ih]
      by_cases hj : n * 8 ≤ j ∧ j < n * 8 + 8
      · rw [if_pos hj, if_neg (by omega), if_pos (by omega)]
      · rw [if_neg hj]
        by_cases hlt : j < n * 8
        · rw [if_pos hlt, if_pos (by omega)]
        · rw [if_neg hlt, if_neg (by omega)]

theorem elementLoop_apply (h : Bodies vector element f) (start len : ℕ) (m : Mem (BitVec 16))
    (j : ℕ) : elementLoop element start len m j = if start ≤ j ∧ j < len then f j (m j) else m j := by
  have hstep : ∀ m i j, element m i j = if j = i then f i (m i) else m j := fun m i j => by
    rw [h.element_eq, Function.update_apply]
  unfold elementLoop
  rw [InPlace.foldl_apply (fun m : Mem (BitVec 16) => m) hstep List.nodup_range']
  simp only [List.mem_range'_1]
  by_cases hj : start ≤ j ∧ j < len
  · rw [if_pos hj, if_pos (by omega)]
  · rw [if_neg hj, if_neg (by omega)]

theorem sumFloat16With_scalar (h : Bodies vector element f) (dst : Mem (BitVec 16)) (len j : ℕ) :
    sumFloat16With vector element .scalar dst len j =
      if j < len / 2 then f j (dst j) else dst j := by
  show elementLoop element 0 (len / 2) dst j = _
  simp only [elementLoop_apply h, Nat.zero_le, true_and]

/-- Without the instructions, the elements before the last ones are not reached. -/
theorem sumFloat16With_avx (h : Bodies vector element f) (isAvxAndF16c : Bool)
    (dst : Mem (BitVec 16)) (len j : ℕ) :
    sumFloat16With vector element (.avx isAvxAndF16c) dst len j =
      if j < len / 2 ∧ (isAvxAndF16c = true ∨ len / 2 / 8 * 8 ≤ j) then f j (dst j) else dst j := by
  cases isAvxAndF16c with
  | false =>
      show elementLoop element (len / 2 / 8 * 8) (len / 2) dst j = _
      simp only [elementLoop_apply h, Bool.false_eq_true, false_or, and_comm]
  | true =>
      show elementLoop element (len / 2 / 8 * 8) (len / 2) (vectorLoop vector (len / 2) dst) j = _
      rw [elementLoop_apply h, vectorLoop_apply h]
      by_cases hlast : len / 2 / 8 * 8 ≤ j
      · rw [if_neg (Nat.not_lt.mpr hlast)]
        simp only [hlast, true_and, or_true, and_true]
      · rw [if_neg fun hj => hlast hj.1, if_pos (Nat.lt_of_not_le hlast), if_pos ⟨by omega, .inl rfl⟩]

/-- What the two builds leave in the elements that fit in `len` bytes is the same. -/
def Agree (sum : Build → Mem (BitVec 16)) (isAvxAndF16c : Bool) (len : ℕ) : Prop :=
  ∀ i < len / 2, sum (.avx isAvxAndF16c) i = sum .scalar i

theorem agree_of (h : Bodies vector element f) {isAvxAndF16c : Bool} {len : ℕ}
    (hreached : isAvxAndF16c = true ∨ len / 2 < 8) (dst : Mem (BitVec 16)) :
    Agree (fun build => sumFloat16With vector element build dst len) isAvxAndF16c len := by
  intro i hi
  simp only [sumFloat16With_avx h, sumFloat16With_scalar h]
  rw [if_pos hi, if_pos ⟨hi, hreached.imp_right fun hlen => by omega⟩]

/-- Where the vectors are skipped and there is one, the first element is not summed. -/
theorem eq_of_agree (h : Bodies vector element f) {isAvxAndF16c : Bool} {len : ℕ}
    {dst : Mem (BitVec 16)}
    (hagree : Agree (fun build => sumFloat16With vector element build dst len) isAvxAndF16c len)
    (hskipped : ¬(isAvxAndF16c = true ∨ len / 2 < 8)) : f 0 (dst 0) = dst 0 := by
  obtain ⟨hfeature, hlen⟩ := not_or.mp hskipped
  have hzero := hagree 0 (by omega)
  simp only [sumFloat16With_avx h, sumFloat16With_scalar h] at hzero
  rw [if_neg fun hreached => hreached.2.elim hfeature (by omega), if_pos (by omega)] at hzero
  exact hzero.symm

end Loops

/-! ### The four functions -/

theorem bodies_sumFloat16 (src : Mem (BitVec 16)) : Bodies
    (fun inout i =>
      storeu inout i (cvtpsPh (addPs (cvtphPs (loadu src i)) (cvtphPs (loadu inout i)))))
    (fun inout i => Function.update inout i (ofFloat (toFloat (inout i) + toFloat (src i))))
    (fun i x => ofFloat (toFloat x + toFloat (src i))) where
  vector_eq m i := by
    refine congrArg (storeu m i) (funext fun k => ?_)
    exact congrArg ofFloat (float_add_comm _ _)
  element_eq _ _ := rfl

theorem bodies_sumFloat16Of (src1 src2 : Mem (BitVec 16)) : Bodies
    (fun out i =>
      storeu out i (cvtpsPh (addPs (cvtphPs (loadu src1 i)) (cvtphPs (loadu src2 i)))))
    (fun out i => Function.update out i (ofFloat (toFloat (src1 i) + toFloat (src2 i))))
    (fun i _ => ofFloat (toFloat (src1 i) + toFloat (src2 i))) where
  vector_eq _ _ := rfl
  element_eq _ _ := rfl

theorem bodies_sumFloat16Scaled (src : Mem (BitVec 16)) (alpha : Float32) : Bodies
    (fun inout i => storeu inout i (cvtpsPh
      (addPs (mulPs (cvtphPs (loadu src i)) fun _ => alpha) (cvtphPs (loadu inout i)))))
    (fun inout i =>
      Function.update inout i (ofFloat (toFloat (inout i) + toFloat (src i) * alpha)))
    (fun i x => ofFloat (toFloat x + toFloat (src i) * alpha)) where
  vector_eq m i := by
    refine congrArg (storeu m i) (funext fun k => ?_)
    exact congrArg ofFloat (float_add_comm _ _)
  element_eq _ _ := rfl

theorem bodies_sumFloat16OfScaled (src1 src2 : Mem (BitVec 16)) (alpha : Float32) : Bodies
    (fun out i => storeu out i (cvtpsPh
      (addPs (cvtphPs (loadu src1 i)) (mulPs (cvtphPs (loadu src2 i)) fun _ => alpha))))
    (fun out i =>
      Function.update out i (ofFloat (toFloat (src1 i) + toFloat (src2 i) * alpha)))
    (fun i _ => ofFloat (toFloat (src1 i) + toFloat (src2 i) * alpha)) where
  vector_eq _ _ := rfl
  element_eq _ _ := rfl

/-- Elements that are finite. -/
def FiniteHalves (m : Mem (BitVec 16)) : Prop := ∀ i, Binary.Format.half.IsFinite (m i).toNat

theorem finiteHalves_zero : FiniteHalves fun _ => 0 := fun _ =>
  show 0 < 31 * 2 ^ 10 by decide

theorem finiteHalves_one : FiniteHalves fun _ => 0x3c00 := fun _ =>
  show 0x3c00 < 31 * 2 ^ 10 by decide

/--
**The builds agree where the vectors are not skipped**: a processor without the instructions
leaves all elements out but those behind the last multiple of eight.
-/
theorem builds_agree_iff (isAvxAndF16c : Bool) (len : ℕ) :
    ((∀ dst src, FiniteHalves dst → FiniteHalves src →
      Agree (fun build => sumFloat16 build dst src len) isAvxAndF16c len) ↔
        (isAvxAndF16c = true ∨ len / 2 < 8)) ∧
    ((∀ dst src1 src2, FiniteHalves dst → FiniteHalves src1 → FiniteHalves src2 →
      Agree (fun build => sumFloat16Of build dst src1 src2 len) isAvxAndF16c len) ↔
        (isAvxAndF16c = true ∨ len / 2 < 8)) ∧
    ((∀ dst src alpha, FiniteHalves dst → FiniteHalves src →
      Agree (fun build => sumFloat16Scaled build dst src len alpha) isAvxAndF16c len) ↔
        (isAvxAndF16c = true ∨ len / 2 < 8)) ∧
    ((∀ dst src1 src2 alpha, FiniteHalves dst → FiniteHalves src1 → FiniteHalves src2 →
      Agree (fun build => sumFloat16OfScaled build dst src1 src2 len alpha) isAvxAndF16c len) ↔
        (isAvxAndF16c = true ∨ len / 2 < 8)) := by
  refine ⟨⟨fun h => ?_, fun h dst src _ _ => agree_of (bodies_sumFloat16 src) h dst⟩,
    ⟨fun h => ?_, fun h dst src1 src2 _ _ _ => agree_of (bodies_sumFloat16Of src1 src2) h dst⟩,
    ⟨fun h => ?_, fun h dst src alpha _ _ => agree_of (bodies_sumFloat16Scaled src alpha) h dst⟩,
    ⟨fun h => ?_, fun h dst src1 src2 alpha _ _ _ =>
      agree_of (bodies_sumFloat16OfScaled src1 src2 alpha) h dst⟩⟩
  · by_contra hskipped
    exact absurd (eq_of_agree (bodies_sumFloat16 _)
      (h _ _ finiteHalves_zero finiteHalves_one) hskipped) (by decide)
  · by_contra hskipped
    exact absurd (eq_of_agree (bodies_sumFloat16Of _ _)
      (h _ _ _ finiteHalves_zero finiteHalves_zero finiteHalves_one) hskipped) (by decide)
  · by_contra hskipped
    exact absurd (eq_of_agree (bodies_sumFloat16Scaled _ 1)
      (h _ _ 1 finiteHalves_zero finiteHalves_one) hskipped) (by decide)
  · by_contra hskipped
    exact absurd (eq_of_agree (bodies_sumFloat16OfScaled _ _ 1)
      (h _ _ _ 1 finiteHalves_zero finiteHalves_zero finiteHalves_one) hskipped) (by decide)

/-- Eight elements, zeros and ones, on a processor without the instructions. -/
theorem eight_elements_are_not_summed :
    ¬Agree (fun build => sumFloat16 build (fun _ => 0) (fun _ => 0x3c00) 16) false 16 := by
  intro h
  exact absurd (eq_of_agree (bodies_sumFloat16 _) h (by decide)) (by decide)

end DeepInc.CpuReducer
