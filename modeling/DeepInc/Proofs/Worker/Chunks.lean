/-
The chunks of a partition, one for each device of a switch.

The devices of a switch share the work on a partition, and each is to do a chunk of its own.
Nobody hands the chunks out: every stage computes its chunk anew, in bytes, from the rank of the
device, the number of devices and the length of an element.

In elements device `r` of `S` has the same number as every other, from `r` times that number on,
and the last has the remainder as well.  So the chunks tile the partition, and an element has
exactly one owner.  With `BYTEPS_REDUCE_ROOTS` set, one device owns the whole partition, and
which one depends on the key.

The computation in bytes gives the bytes of these elements if the length of a tensor is that of
its elements, as a framework passes it.  Whatever a stage does with its chunk is in the later
files; here is what it is.
-/
import DeepInc.Worker.Transfer
import Mathlib.Algebra.Order.Group.Nat
import Mathlib.Data.Nat.ModEq
import Mathlib.Tactic.Ring

namespace DeepInc.Worker

open ByteMemory Tiling

variable {S E w : ℕ}

/-! ### The devices -/

/-- Device `r` of a machine of `L` with `S` on a switch. -/
def deviceOf (L S : ℕ) (roots : Option (List ℤ)) (r : ℕ) : Device :=
  { localRank := r, localSize := L, ncclSize := S, reduceRoots := roots }

/-- Every switch has as many devices as the others. -/
theorem NcclManager.initGlobalEnv_dvd {env : Option ℤ} {L : ℕ} {m : NcclManager}
    (h : initGlobalEnv env L = some m) : m.ncclPcieSize ∣ L := by
  unfold initGlobalEnv at h
  simp only at h
  split at h
  · cases h
  · split at h
    · cases h
      exact dvd_rfl
    · split at h
      · cases h
        exact dvd_rfl
      · rename_i hrest
        cases h
        exact Nat.dvd_of_mod_eq_zero (not_not.mp hrest)

/-! ### The columns

The loop of `CpuReducer` goes over the devices with the same place on every switch, from the
first switch on.  What it finds is a growing list, and so its last member is its greatest. -/

namespace Device

section Peers

variable {L : ℕ}

theorem mem_peersFrom (hS : 1 ≤ S) {fuel i k : ℕ} (hfuel : L ≤ i + fuel) :
    k ∈ peersFrom S L fuel i ↔ k < L ∧ i ≤ k ∧ k % S = i % S := by
  induction fuel generalizing i with
  | zero =>
      constructor
      · intro h
        cases h
      · rintro ⟨hk, hik, _⟩
        omega
  | succ fuel ih =>
      unfold peersFrom
      split
      · rename_i hi
        rw [List.mem_cons, ih (by omega), Nat.add_mod_right]
        constructor
        · rintro (rfl | ⟨hk, hik, hmod⟩)
          · exact ⟨hi, le_rfl, rfl⟩
          · exact ⟨hk, by omega, hmod⟩
        · rintro ⟨hk, hik, hmod⟩
          rcases hik.eq_or_lt with rfl | hlt
          · exact .inl rfl
          · refine .inr ⟨hk, ?_, hmod⟩
            have hdvd : S ∣ k - i := (Nat.modEq_iff_dvd' hik).mp hmod.symm
            have := Nat.le_of_dvd (by omega) hdvd
            omega
      · constructor
        · intro h
          cases h
        · rintro ⟨hk, hik, _⟩
          omega

theorem pairwise_peersFrom (hS : 1 ≤ S) (fuel i : ℕ) :
    (peersFrom S L fuel i).Pairwise (· < ·) ∧ ∀ k ∈ peersFrom S L fuel i, i ≤ k := by
  induction fuel generalizing i with
  | zero => exact ⟨.nil, fun k hk => by cases hk⟩
  | succ fuel ih =>
      obtain ⟨hsorted, hle⟩ := ih (i + S)
      unfold peersFrom
      split
      · refine ⟨List.pairwise_cons.mpr ⟨fun k hk => ?_, hsorted⟩, fun k hk => ?_⟩
        · have := hle k hk
          omega
        · rcases List.mem_cons.mp hk with rfl | hk
          · exact le_rfl
          · have := hle k hk
            omega
      · exact ⟨.nil, fun k hk => by cases hk⟩

variable {d : Device} {k : ℕ}

theorem mem_reducerPeers (hS : 1 ≤ d.ncclSize) : k ∈ d.reducerPeers ↔
    k < d.localSize ∧ k % d.ncclSize = d.localRank % d.ncclSize := by
  unfold reducerPeers
  rw [mem_peersFrom hS (Nat.le_add_left _ _), Nat.mod_mod]
  refine and_congr_right fun _ => ⟨fun h => h.2, fun h => ⟨?_, h⟩⟩
  rw [← h]
  exact Nat.mod_le _ _

theorem pairwise_reducerPeers (hS : 1 ≤ d.ncclSize) : d.reducerPeers.Pairwise (· < ·) :=
  (pairwise_peersFrom hS _ _).1

end Peers

end Device

/-- The last of a growing list is the greatest. -/
theorem getLast?_eq_some_iff_of_pairwise {l : List ℕ} (hl : l.Pairwise (· < ·)) {k : ℕ} :
    l.getLast? = some k ↔ k ∈ l ∧ ∀ i ∈ l, i ≤ k := by
  constructor
  · intro h
    obtain ⟨l, rfl⟩ := List.getLast?_eq_some_iff.mp h
    refine ⟨List.mem_append_right _ List.mem_cons_self, fun i hi => ?_⟩
    rcases List.mem_append.mp hi with hi | hi
    · exact ((List.pairwise_append.mp hl).2.2 i hi k List.mem_cons_self).le
    · exact (List.mem_singleton.mp hi).le
  · rintro ⟨hk, hmax⟩
    have hne := List.ne_nil_of_mem hk
    rw [List.getLast?_eq_some_getLast hne]
    have hle := hmax _ (List.getLast_mem hne)
    obtain ⟨l', hl'⟩ : ∃ l', l = l' ++ [l.getLast hne] := ⟨_, (List.dropLast_append_getLast hne).symm⟩
    rw [hl'] at hk hl
    rcases List.mem_append.mp hk with hk | hk
    · have := (List.pairwise_append.mp hl).2.2 k hk _ List.mem_cons_self
      omega
    · rw [List.mem_singleton.mp hk]

/-! ### A task on every device -/

/-- A tensor as a framework passes it: as many bytes as its elements take. -/
structure Tensor.Packed (t : Tensor) : Prop where
  size : t.size = t.numElements * getDataTypeLength t.dtype
  nonempty : 0 < t.numElements

theorem Tensor.Packed.unitLen_eq {t : Tensor} (h : t.Packed) :
    t.unitLen = getDataTypeLength t.dtype := by
  unfold Tensor.unitLen
  rw [h.size, Nat.mul_div_cancel_left _ h.nonempty]

/-- The tasks the devices have for one partition, of `E` elements from byte `offset` on. -/
structure SamePartition (task : ℕ → DeviceTask) (t : Tensor) (key offset E : ℕ) : Prop where
  packed : t.Packed
  tensor : ∀ r, (task r).tensor = some t
  output : ∀ r, (task r).output = some t
  key : ∀ r, (task r).key = key
  offset : ∀ r, (task r).offset = offset
  len : ∀ r, (task r).len = E * t.unitLen
  named : ∀ r, (task r).tensorName ≠ ""

/-- A tensor of one byte. -/
def byteTensor : Tensor := { size := 1, numElements := 1, dtype := .uint8 }

theorem byteTensor_packed : byteTensor.Packed := ⟨rfl, Nat.one_pos⟩

/-- Its only partition. -/
def byteTask : DeviceTask where
  tensorName := "grad_0"
  key := 0
  tensor := some byteTensor
  output := some byteTensor
  priority := 0
  readyEvent := none
  device := 0
  queueList := [.reduce, .copyD2H]
  offset := 0
  len := 1
  counterPtr := some 0
  totalPartnum := 1
  compressor := none
  outputData := .tensor
  sameTensor := true
  same := fun _ => rfl

theorem byteTask_partition : SamePartition (fun _ => byteTask) byteTensor 0 0 1 where
  packed := byteTensor_packed
  tensor := fun _ => rfl
  output := fun _ => rfl
  key := fun _ => rfl
  offset := fun _ => rfl
  len := fun _ => rfl
  named := fun _ => by decide

section Elements

variable {β : Type}

/-- The elements of the partition in one of the shared buffers. -/
def hostElems (t : Tensor) (offset : ℕ) (host : HostMemory β) (i j : ℕ) : Element β t.dtype :=
  elems _ (host i) offset j

/-- The elements of the partition in the memory of a device. -/
def devElems (t : Tensor) (offset : ℕ) (m : DeviceMemory β) (b : Buffer) (j : ℕ) :
    Element β t.dtype := elems _ (m b) offset j

end Elements

/-! ### Chunks

Here are only numbers: of `E` elements, each of `S` devices has a range.  That the ranges tile
`0` to `E` is an induction on the devices.
-/

/-- The elements device `r` keeps in the scatter scheme. -/
def chunk (S E r : ℕ) : Range :=
  { start := r * (E / S), len := E / S + if r + 1 = S then E % S else 0 }

/-- The elements device `r` keeps. -/
def share (S E : ℕ) (root : Option ℤ) (r : ℕ) : Range :=
  match root with
  | none => chunk S E r
  | some root => { start := 0, len := if root = r then E else 0 }

theorem chunk_last_start (hS : 0 < S) : (S - 1) * (E / S) + (E / S + E % S) = E := by
  have hdiv := Nat.div_add_mod E S
  have hmul : (S - 1) * (E / S) + E / S = S * (E / S) := by
    rw [← Nat.succ_mul, Nat.succ_eq_add_one, Nat.sub_add_cancel hS]
  omega

theorem tiles_chunk (hS : 0 < S) : Tiles 0 ((List.range S).map (chunk S E)) E := by
  obtain ⟨n, rfl⟩ : ∃ n, S = n + 1 := ⟨S - 1, (Nat.sub_add_cancel hS).symm⟩
  have hlast := chunk_last_start (E := E) hS
  -- all but the last have the same length
  have hfirst : Tiles (0 * (E / (n + 1)))
      ((List.range n).map fun i => ⟨i * (E / (n + 1)), E / (n + 1)⟩) (n * (E / (n + 1))) :=
    tiles_map_range (fun i => i * (E / (n + 1))) (fun _ => E / (n + 1)) n
      fun i _ => Nat.succ_mul i _
  have hmap : (List.range n).map (chunk (n + 1) E) =
      (List.range n).map fun i => ⟨i * (E / (n + 1)), E / (n + 1)⟩ := by
    apply List.map_congr_left
    intro i hi
    unfold chunk
    rw [if_neg (by have := List.mem_range.mp hi; omega)]
    rfl
  rw [List.range_succ, List.map_append, hmap]
  rw [Nat.zero_mul] at hfirst
  refine hfirst.append ⟨rfl, ?_⟩
  unfold Range.stop chunk
  dsimp only
  rw [if_pos rfl]
  exact hlast

theorem chunk_disjoint (hS : 0 < S) {r r' : ℕ} (hlt : r < r') (hr' : r' < S) :
    (chunk S E r).Disjoint (chunk S E r') := by
  have hpair := List.pairwise_map.mp (tiles_chunk (E := E) hS).pairwise_disjoint
  have hget := List.pairwise_iff_getElem.mp hpair r r'
    (by rw [List.length_range]; omega) (by rw [List.length_range]; exact hr') hlt
  rwa [List.getElem_range, List.getElem_range] at hget

/-- An element has exactly one owner. -/
theorem existsUnique_chunk (hS : 0 < S) {j : ℕ} (hj : j < E) : ∃! r, r < S ∧ (chunk S E r).Has j := by
  obtain ⟨_, hmem, hhas⟩ := (tiles_chunk hS).exists_has (Nat.zero_le j) hj
  obtain ⟨r, hr, rfl⟩ := List.mem_map.mp hmem
  have hr := List.mem_range.mp hr
  refine ⟨r, ⟨hr, hhas⟩, ?_⟩
  rintro r' ⟨hr', hhas'⟩
  rcases Nat.lt_trichotomy r' r with hlt | heq | hgt
  · exact absurd hhas (chunk_disjoint hS hlt hr j hhas')
  · exact heq
  · exact absurd hhas' (chunk_disjoint hS hgt hr' j hhas)

/-- So it has with a single root. -/
theorem existsUnique_share (hS : 0 < S) {root : Option ℤ} (hroot : ∀ r ∈ root, 0 ≤ r ∧ r < S)
    {j : ℕ} (hj : j < E) : ∃! r, r < S ∧ (share S E root r).Has j := by
  cases root with
  | none => exact existsUnique_chunk hS hj
  | some root =>
      obtain ⟨hnonneg, hlt⟩ := hroot root rfl
      have hcast : ((root.toNat : ℕ) : ℤ) = root := Int.toNat_of_nonneg hnonneg
      refine ⟨root.toNat, ⟨by omega, ?_⟩, ?_⟩
      · unfold share Range.Has Range.stop
        dsimp only
        rw [if_pos hcast.symm]
        omega
      · rintro r ⟨_, hhas⟩
        unfold share Range.Has Range.stop at hhas
        dsimp only at hhas
        by_contra hne
        rw [if_neg (by omega)] at hhas
        omega

/-! ### What the stages compute

The source divides a length in bytes by the number of devices and then by the length of an
element.  For whole elements that is the number of elements divided by the number of devices.
-/

section Device

variable {L r : ℕ} {roots : Option (List ℤ)}

theorem numElemPerGpu_eq (hw : 0 < w) :
    numElemPerGpu (deviceOf L S roots r) (E * w) w = E / S := by
  unfold numElemPerGpu deviceOf
  dsimp only
  rw [Nat.div_div_eq_div_mul, Nat.mul_comm S w, ← Nat.div_div_eq_div_mul,
    Nat.mul_div_cancel _ hw]

theorem leftElem_eq (hw : 0 < w) : leftElem (deviceOf L S roots r) (E * w) w = E % S := by
  unfold leftElem
  rw [numElemPerGpu_eq hw, Nat.mul_div_cancel _ hw]
  have hdiv := Nat.div_add_mod' E S
  unfold deviceOf
  dsimp only
  omega

/-- The bytes of some elements. -/
def bytesOf (w : ℕ) (r : Range) : Range := { start := r.start * w, len := r.len * w }

theorem scatterRange_eq (hw : 0 < w) (hS : 0 < S) :
    scatterRange (deviceOf L S roots r) (E * w) w = bytesOf w (chunk S E (r % S)) := by
  have hroot : S - 1 = r % S ↔ r % S + 1 = S := by omega
  unfold scatterRange bytesOf chunk
  rw [numElemPerGpu_eq hw, leftElem_eq hw]
  unfold Device.getRank Device.getRoot deviceOf
  dsimp only
  by_cases hlast : r % S + 1 = S
  · rw [if_pos hlast]
    by_cases hleft : E % S = 0
    · rw [if_neg (fun h => h.1 hleft), hleft, Nat.add_zero]
    · rw [if_pos ⟨hleft, hroot.mpr hlast⟩, Nat.add_mul]
  · rw [if_neg (fun h => hlast (hroot.mp h.2)), if_neg hlast, Nat.add_zero]

/-- The root `BYTEPS_REDUCE_ROOTS` gives a key, when it is set; none when there is none to take. -/
def chosenRoot (roots : Option (List ℤ)) (key : ℕ) : Option (Option ℤ) :=
  match roots with
  | none => some none
  | some roots => (getReduceRootByKey roots key).map some

theorem copyRange_eq {key : ℕ} (hw : 0 < w) (hr : r < S) {root : Option ℤ}
    (hroot : chosenRoot roots key = some root) :
    copyRange (deviceOf L S roots r) key (E * w) w = some (bytesOf w (share S E root r)) := by
  have hS : 0 < S := Nat.lt_of_le_of_lt (Nat.zero_le r) hr
  have hrank : r % S = r := Nat.mod_eq_of_lt hr
  unfold chosenRoot at hroot
  cases roots with
  | none =>
      cases hroot
      have hscatter : scatterRange (deviceOf L S none r) (E * w) w = _ := scatterRange_eq hw hS
      rw [hrank] at hscatter
      exact congrArg some hscatter
  | some roots =>
      obtain ⟨chosen, hchosen, rfl⟩ := Option.map_eq_some_iff.mp hroot
      unfold copyRange deviceOf Device.getRank
      dsimp only
      rw [hchosen, hrank]
      unfold share bytesOf
      dsimp only
      rw [Nat.zero_mul]
      by_cases hown : chosen = r
      · rw [if_pos hown]
        simp [hown]
      · simp [hown]

end Device

end DeepInc.Worker
