/-
What the bit stream of `DitheringCompressor` reads back as.

A compressed tensor holds the code words of the elements that are not rounded to zero: the
distance from the last such element, the sign, and the level.  Behind them are the number of
bits and the scale.  `items` are these elements, and `encode` the bits of their code words.

The compression loop puts exactly these bits.  The loop of `DecompressImpl` and
`FastUpdateErrorImpl` visits exactly these elements, in order and with the value that was
written; it is one loop with two bodies, so that the one subtracts what the other gives.

All of this is for words of up to 32 bits.  Words of 64 bits are read by `BitReader` with a
shift that is too far, and the loop ends at the first code word.  That the trailer is behind all
bits is a hypothesis here, and `Proofs/Compressor/Blocks.lean` says when it is so.
-/
import DeepInc.Compressor.Dithering
import DeepInc.Proofs.Compressor.BitStream

namespace DeepInc.Compressor.Dithering

open EliasDelta

variable {w : ℕ} {K : Type}

/-- An element that is not rounded to zero. -/
structure Item where
  index : ℕ
  signbit : Bool
  quantized : BitVec 32

/-- The bits of the elements, after the one at `last`. -/
def encode : BitVec 64 → List Item → List Bool
  | _, [] => []
  | last, x :: xs =>
    code (BitVec.ofNat 64 x.index - last).toNat ++
      (x.signbit :: (code x.quantized.toNat ++ encode (BitVec.ofNat 64 x.index) xs))

/-! ### Reading

The loop goes on as long as its reader stands before the number of bits.  It is followed by
induction on the elements that were written, with the reader before the code word of the first
of them.
-/

/-- Code words that can be written after the index before `lo`. -/
structure Encodable (lo : ℕ) (xs : List Item) : Prop where
  sorted : xs.Pairwise fun x y => x.index < y.index
  le : ∀ x ∈ xs, lo ≤ x.index
  lt : ∀ x ∈ xs, x.index + 1 < 2 ^ 64
  quantized : ∀ x ∈ xs, x.quantized ≠ 0

theorem Encodable.tail {lo : ℕ} {x : Item} {xs : List Item} (h : Encodable lo (x :: xs)) :
    Encodable (x.index + 1) xs where
  sorted := (List.pairwise_cons.mp h.sorted).2
  le y hy := (List.pairwise_cons.mp h.sorted).1 y hy
  lt y hy := h.lt y (List.mem_cons_of_mem x hy)
  quantized y hy := h.quantized y (List.mem_cons_of_mem x hy)

/-- The distance from the last index, which starts at `-1`. -/
theorem toNat_diff {lo i : ℕ} (hlo : lo ≤ i) (hi : i + 1 < 2 ^ 64) :
    (BitVec.ofNat 64 i - (BitVec.ofNat 64 lo - 1)).toNat = i + 1 - lo := by
  rw [show BitVec.ofNat 64 i - (BitVec.ofNat 64 lo - 1) = BitVec.ofNat 64 (i + 1 - lo) by
    apply BitVec.eq_of_toNat_eq
    simp only [BitVec.toNat_sub, BitVec.toNat_ofNat, show (1 : BitVec 64).toNat = 1 from rfl]
    omega]
  rw [BitVec.toNat_ofNat, Nat.mod_eq_of_lt (by omega)]

section Read

variable {data : Mem (Cell w K)} {r : BitReader w K} {p : ℕ}

/-- A code word is read as the element it was written for. -/
theorem readItem_encode (hw : w ≤ 32) {lo : ℕ} {x : Item} {xs : List Item}
    (hx : Encodable lo (x :: xs)) (hat : r.At data p)
    (hbits : ∀ i < (encode (BitVec.ofNat 64 lo - 1) (x :: xs)).length,
      (encode (BitVec.ofNat 64 lo - 1) (x :: xs))[i]? = some (bitAt data (p + i))) :
    ∃ r' k, readItem r (BitVec.ofNat 64 lo - 1) =
        .ok (BitVec.ofNat 64 x.index, x.signbit, x.quantized, r') ∧
      r'.At data (p + k) ∧ 0 < k ∧
      (encode (BitVec.ofNat 64 lo - 1) (x :: xs)).length =
        k + (encode (BitVec.ofNat 64 x.index) xs).length ∧
      ∀ i < (encode (BitVec.ofNat 64 x.index) xs).length,
        (encode (BitVec.ofNat 64 x.index) xs)[i]? = some (bitAt data (p + k + i)) := by
  have hdiff := toNat_diff (hx.le x List.mem_cons_self) (hx.lt x List.mem_cons_self)
  have hlt := hx.lt x List.mem_cons_self
  have hle := hx.le x List.mem_cons_self
  have hq : x.quantized.toNat ≠ 0 := fun h =>
    hx.quantized x List.mem_cons_self (BitVec.eq_of_toNat_eq h)
  have hq64 : x.quantized.toNat < 2 ^ 64 := x.quantized.isLt.trans (by decide)
  generalize hlast : BitVec.ofNat 64 lo - 1 = last at *
  -- the word of the element, in front of the rest of the stream
  obtain ⟨word, hword⟩ : ∃ word, word =
    code (BitVec.ofNat 64 x.index - last).toNat ++ (x.signbit :: code x.quantized.toNat) := ⟨_, rfl⟩
  have hencode : encode last (x :: xs) = word ++ encode (BitVec.ofNat 64 x.index) xs := by
    simp [hword, encode]
  rw [hencode] at hbits ⊢
  have hfirst : ∀ i < word.length, word[i]? = some (bitAt data (p + i)) := fun i hi => by
    rw [← hbits i (by rw [List.length_append]; omega), List.getElem?_append_left hi]
  obtain ⟨r', hdel, hat'⟩ := hat.delivers hw hfirst
  rw [hword] at hdel
  obtain ⟨r₁, h₁, h₂⟩ := hdel.split
  cases h₂ with
  | cons hsign h₃ =>
      refine ⟨r', word.length, ?_, hat', ?_, List.length_append, fun i hi => ?_⟩
      · unfold readItem
        rw [BitReader.eliasDeltaDecode_code (by omega) (by omega) h₁]
        simp only [bind, Except.bind, hsign]
        rw [BitReader.eliasDeltaDecode_code hq hq64 h₃]
        simp only [BitVec.ofNat_toNat, BitVec.setWidth_eq]
        rw [BitVec.add_comm, BitVec.sub_add_cancel]
      · simp [hword]
      · rw [show p + word.length + i = p + (word.length + i) by omega,
          ← hbits (word.length + i) (by rw [List.length_append]; omega),
          List.getElem?_append_right (by omega), Nat.add_sub_cancel_left]

/--
**The loop visits the elements that were written.** How many it visits does not depend on what
it does with them; it is all of them unless the number of bits is cut off.

A number of bits that is cut off is smaller, and the loop stops before the end of the stream.
-/
theorem readLoop_encode (hw : w ≤ 32) (bits : ℕ) {xs : List Item} {lo fuel : ℕ}
    (hx : Encodable lo xs) (hat : r.At data p)
    (hbits : ∀ i < (encode (BitVec.ofNat 64 lo - 1) xs).length,
      (encode (BitVec.ofNat 64 lo - 1) xs)[i]? = some (bitAt data (p + i)))
    (hend : bits ≤ p + (encode (BitVec.ofNat 64 lo - 1) xs).length) (hfuel : bits ≤ p + fuel) :
    ∃ n, (bits = p + (encode (BitVec.ofNat 64 lo - 1) xs).length → n = xs.length) ∧
      ∀ (value : Bool → BitVec 32 → K) (visit : Mem K → ℕ → K → Mem K) (m : Mem K),
        readLoop visit value bits fuel r (BitVec.ofNat 64 lo - 1) m =
          .ok ((xs.take n).foldl (fun m x => visit m x.index (value x.signbit x.quantized)) m) := by
  induction xs generalizing lo fuel r p with
  | nil =>
      refine ⟨0, fun _ => rfl, fun value visit m => ?_⟩
      have hdone : ¬r.bits < bits := by
        rw [hat.bits]
        exact Nat.not_lt.mpr hend
      cases fuel with
      | zero => rfl
      | succ fuel =>
          unfold readLoop
          rw [if_neg hdone]
          rfl
  | cons x xs ih =>
      by_cases hmore : p < bits
      · obtain ⟨fuel, rfl⟩ : ∃ f, fuel = f + 1 := ⟨fuel - 1, by omega⟩
        obtain ⟨r', k, hread, hat', hk, hlen, hrest⟩ := readItem_encode hw hx hat hbits
        have hlast : BitVec.ofNat 64 x.index = BitVec.ofNat 64 (x.index + 1) - 1 := by
          rw [BitVec.ofNat_add]
          exact (BitVec.add_sub_cancel _ _).symm
        rw [hlast] at hlen hrest
        have hfuel' : bits ≤ p + k + fuel := by omega
        obtain ⟨n, hall, hn⟩ := ih hx.tail hat' hrest (by omega) hfuel'
        refine ⟨n + 1, fun hbits => ?_, fun value visit m => ?_⟩
        · rw [List.length_cons, hall (by omega)]
        · unfold readLoop
          rw [hat.bits, if_pos hmore, hread]
          simp only [bind, Except.bind]
          have hindex : (BitVec.ofNat 64 x.index).toNat = x.index := by
            have := hx.lt x List.mem_cons_self
            rw [BitVec.toNat_ofNat, Nat.mod_eq_of_lt (by omega)]
          rw [hindex, hlast, hn, List.take_succ_cons, List.foldl_cons]
      · refine ⟨0, fun hbits => ?_, fun value visit m => ?_⟩
        · -- a code word takes a bit at least
          obtain ⟨_, k, -, -, hk, hlen, -⟩ := readItem_encode hw hx hat ‹_›
          omega
        cases fuel with
        | zero => rfl
        | succ fuel =>
            unfold readLoop
            rw [hat.bits, if_neg hmore]
            rfl

end Read

/-! ### What a compressed tensor holds

`Holds` is what the two loops rely on, and it says nothing of how a tensor came to hold it.  So
the same result is there for a tensor that was just compressed and for one that a server has
received.
-/

section Holds

/-- Subtracting the values of some elements is subtracting what writing them gives. -/
theorem foldl_sub [Field K] (value : Item → K) (c : K) (j : ℕ) {xs : List Item}
    (hxs : xs.Pairwise fun x y => x.index < y.index) {error dst : Mem K}
    (hc : error j = c - dst j) (hzero : ∀ x ∈ xs, x.index = j → dst j = 0) :
    xs.foldl (fun m x => Function.update m x.index (m x.index - value x)) error j =
      c - xs.foldl (fun m x => Function.update m x.index (value x)) dst j := by
  induction xs generalizing error dst with
  | nil => exact hc
  | cons x xs ih =>
      obtain ⟨hlt, hrest⟩ := List.pairwise_cons.mp hxs
      rw [List.foldl_cons, List.foldl_cons]
      by_cases hj : x.index = j
      · have h0 := hzero x List.mem_cons_self hj
        subst hj
        refine ih hrest ?_ fun y hy hidx => absurd hidx (Nat.ne_of_gt (hlt y hy))
        rw [Function.update_self, Function.update_self, hc, h0, sub_zero]
      · refine ih hrest ?_ fun y hy hidx => ?_
        · rw [Function.update_of_ne (Ne.symm hj), Function.update_of_ne (Ne.symm hj), hc]
        · rw [Function.update_of_ne (Ne.symm hj)]
          exact hzero y (List.mem_cons_of_mem x hy) hidx

/-- What a compressed tensor holds: the stream, the number of its bits and the scale. -/
structure Holds (data : Mem (Cell w K)) (size : ℕ) (xs : List Item) (scale : K) : Prop where
  stream : ∀ i < (encode (-1) xs).length, (encode (-1) xs)[i]? = some (bitAt data i)
  bits : (data (blocks w size)).asIndex.toNat ≤ (encode (-1) xs).length
  scale : (data (blocks w size + 1)).asScalar = scale

/-- Both loops over a compressed tensor visit the same elements. -/
theorem Holds.readAll {data : Mem (Cell w K)} {size : ℕ} {xs : List Item} {scale : K}
    (h : Holds data size xs scale) (hw : 8 ≤ w) (hw' : w ≤ 32) (hx : Encodable 0 xs) : ∃ n,
      ((data (blocks w size)).asIndex.toNat = (encode (-1) xs).length → n = xs.length) ∧
      ∀ (value : K → Bool → BitVec 32 → K) (visit : Mem K → ℕ → K → Mem K) (m : Mem K),
        readAll value visit data size m = .ok ((xs.take n).foldl
          (fun m x => visit m x.index (value scale x.signbit x.quantized)) m) := by
  have hstart : (-1 : BitVec 64) = BitVec.ofNat 64 0 - 1 := by decide
  have hstream := h.stream
  have hbits := h.bits
  rw [hstart] at hstream hbits
  obtain ⟨n, hall, hn⟩ := readLoop_encode hw' (data (blocks w size)).asIndex.toNat hx
    (BitReader.at_new (by omega) data)
    (by simpa using hstream) (by simpa using hbits) (Nat.le_add_left _ 0)
  refine ⟨n, fun hcount => hall (by rw [hcount, hstart, Nat.zero_add]), fun value visit m => ?_⟩
  unfold Dithering.readAll
  simp only [h.scale]
  rw [hstart]
  exact hn (value scale) visit m

/-- Over words of 64 bits, they end with the first code word. -/
theorem readAll_error {data : Mem (Cell 64 K)} {size : ℕ}
    (h : 0 < (data (blocks 64 size)).asIndex.toNat) (value : K → Bool → BitVec 32 → K)
    (visit : Mem K → ℕ → K → Mem K) (m : Mem K) :
    readAll value visit data size m = .error .shift := by
  have hitem : readItem (.new data) (-1) = .error .shift := by
    unfold readItem
    rw [BitReader.eliasDeltaDecode_new]
    rfl
  obtain ⟨n, hn⟩ : ∃ n, (data (blocks 64 size)).asIndex.toNat = n + 1 :=
    ⟨(data (blocks 64 size)).asIndex.toNat - 1, by omega⟩
  unfold readAll
  simp only [hn]
  rw [readLoop, (BitReader.at_new (by decide) data).bits, if_pos (Nat.succ_pos n), hitem]
  rfl

end Holds

/-! ### Writing -/

section Trailer

variable [Field K]

/-- The words in front of the trailer. -/
theorem blocks_putTrailer (hw : 8 ≤ w) (n : ℕ) (writer : BitWriter w K) (scale : K) :
    blocks w (putTrailer n writer scale).2 = n := by
  have hsize : 0 < sizeofIndex w := Nat.div_pos hw (by decide)
  unfold blocks putTrailer
  simp only
  rw [Nat.add_sub_cancel, Nat.add_sub_cancel, Nat.mul_div_cancel _ hsize]

/-- The first word of it is the number of bits, as far as it fits. -/
theorem bits_putTrailer (n : ℕ) (writer : BitWriter w K) (scale : K) :
    ((putTrailer n writer scale).1 n).asIndex.toNat = writer.bits % 2 ^ w := by
  unfold putTrailer
  simp only
  rw [Function.update_of_ne (by omega), Function.update_self, Cell.asIndex_index, BitVec.toNat_ofNat]

theorem scale_putTrailer (n : ℕ) (writer : BitWriter w K) (scale : K) :
    ((putTrailer n writer scale).1 (n + 1)).asScalar = scale := by
  unfold putTrailer
  simp only
  rw [Function.update_self, Cell.asScalar_scalar]

/-- The words before it stay. -/
theorem bitAt_putTrailer (n : ℕ) (writer : BitWriter w K) (scale : K) {i : ℕ} (hi : i < n * w) :
    bitAt (putTrailer n writer scale).1 i = bitAt writer.data i := by
  unfold putTrailer
  simp only
  rw [bitAt_update_of_lt _ _ (by rw [Nat.add_mul]; omega), bitAt_update_of_lt _ _ hi]

end Trailer

section Write

variable [Field K] [LinearOrder K] {quantize : K → Rng → BitVec 32 × Rng}

/-- The elements of a list of indices that are not rounded to zero. -/
def items (quantize : K → Rng → BitVec 32 × Rng) (src : Mem K) : Rng → List ℕ → List Item
  | _, [] => []
  | rng, i :: is =>
    let q := quantize |src i| rng
    if q.1 ≠ 0 then
      { index := i, signbit := decide (src i < 0), quantized := q.1 } :: items quantize src q.2 is
    else items quantize src q.2 is

theorem mem_items {src : Mem K} {is : List ℕ} {rng : Rng} {x : Item}
    (hx : x ∈ items quantize src rng is) : x.index ∈ is ∧ x.quantized ≠ 0 := by
  induction is generalizing rng with
  | nil => cases hx
  | cons i is ih =>
      unfold items at hx
      by_cases hq : (quantize |src i| rng).1 ≠ 0
      · simp only [if_pos hq] at hx
        rcases List.mem_cons.mp hx with rfl | hx
        · exact ⟨List.mem_cons_self, hq⟩
        · exact ⟨List.mem_cons_of_mem i (ih hx).1, (ih hx).2⟩
      · simp only [if_neg hq] at hx
        exact ⟨List.mem_cons_of_mem i (ih hx).1, (ih hx).2⟩

theorem items_sorted {src : Mem K} {is : List ℕ} {rng : Rng} (his : is.Pairwise (· < ·)) :
    (items quantize src rng is).Pairwise fun x y => x.index < y.index := by
  induction is generalizing rng with
  | nil => exact .nil
  | cons i is ih =>
      obtain ⟨hlt, hrest⟩ := List.pairwise_cons.mp his
      unfold items
      by_cases hq : (quantize |src i| rng).1 ≠ 0
      · simp only [if_pos hq]
        exact .cons (fun y hy => hlt _ (mem_items hy).1) (ih hrest)
      · simp only [if_neg hq]
        exact ih hrest

theorem encodable_items (quantize : K → Rng → BitVec 32 × Rng) (src : Mem K) (rng : Rng) {len : ℕ}
    (hlen : len < 2 ^ 64) : Encodable 0 (items quantize src rng (List.range len)) where
  sorted := items_sorted List.pairwise_lt_range
  le _ _ := Nat.zero_le _
  lt _ hx := Nat.lt_of_le_of_lt (List.mem_range.mp (mem_items hx).1) hlen
  quantized _ hx := (mem_items hx).2

/-- The loop puts the code words of the elements. -/
theorem foldl_step (quantize : K → Rng → BitVec 32 × Rng) (src : Mem K) (is : List ℕ)
    (l : Loop w K) : (is.foldl (step quantize src) l).writer =
      l.writer.putAll (encode l.lastNonZeroPos (items quantize src l.rng is)) := by
  induction is generalizing l with
  | nil => rfl
  | cons i is ih =>
      rw [List.foldl_cons, ih]
      by_cases hq : (quantize |src i| l.rng).1 ≠ 0
      · simp only [step, items, if_pos hq]
        have hput : ∀ (b : BitWriter w K) x, b.put x = b.putAll [x] := fun _ _ => rfl
        rw [BitWriter.eliasDeltaEncode_eq, BitWriter.eliasDeltaEncode_eq, hput,
          BitWriter.putAll_append, BitWriter.putAll_append, BitWriter.putAll_append, encode]
        simp only [List.singleton_append]
      · simp only [step, items, if_neg hq]

/-- The bits of the elements of a gradient. -/
def streamBits (quantize : K → Rng → BitVec 32 × Rng) (rng : Rng) (src : Mem K) (len : ℕ) : ℕ :=
  (encode (-1) (items quantize src rng (List.range len))).length

theorem wrote_encodeAll (hw : 0 < w) (quantize : K → Rng → BitVec 32 × Rng) (rng : Rng)
    (dst : Mem (Cell w K)) (src : Mem K) (len : ℕ) :
    (encodeAll quantize rng dst src len).writer.Wrote
      (encode (-1) (items quantize src rng (List.range len))) := by
  unfold encodeAll
  rw [foldl_step]
  exact (BitWriter.wrote_new hw dst).putAll _

theorem bits_encodeAll (hw : 0 < w) (quantize : K → Rng → BitVec 32 × Rng) (rng : Rng)
    (dst : Mem (Cell w K)) (src : Mem K) (len : ℕ) :
    (encodeAll quantize rng dst src len).writer.flush.bits = streamBits quantize rng src len := by
  rw [BitWriter.flush_bits]
  exact (wrote_encodeAll hw quantize rng dst src len).bits

/-- What a tensor holds whose trailer is behind all bits. -/
theorem holds_putTrailer (hw : 8 ≤ w) (quantize : K → Rng → BitVec 32 × Rng) (scale : K) (rng : Rng)
    (dst : Mem (Cell w K)) (src : Mem K) {len n : ℕ} (hn : streamBits quantize rng src len ≤ n * w) :
    Holds (putTrailer n (encodeAll quantize rng dst src len).writer.flush scale).1
      (putTrailer n (encodeAll quantize rng dst src len).writer.flush scale).2
      (items quantize src rng (List.range len)) scale where
  stream i hi := by
    rw [bitAt_putTrailer _ _ _ (Nat.lt_of_lt_of_le hi hn)]
    exact (wrote_encodeAll (by omega) quantize rng dst src len).flush hi
  bits := by
    rw [blocks_putTrailer hw, bits_putTrailer, bits_encodeAll (by omega)]
    exact Nat.mod_le _ _
  scale := by rw [blocks_putTrailer hw, scale_putTrailer]

variable [FloorSemiring K]

theorem holds_compress (hw : 8 ≤ w) (p : Params K) (rng : Rng) (dst : Mem (Cell w K))
    (src : Mem K) (len : ℕ) :
    Holds (compress p rng dst src len).2.1 (compress p rng dst src len).2.2
      (items (Dithering.quantize p (scale p src len)) src rng (List.range len))
      (scale p src len) := by
  refine holds_putTrailer hw _ _ rng dst src ?_
  rw [← bits_encodeAll (show 0 < w by omega) _ rng dst src len]
  exact BitWriter.bits_le_numBlocks (by omega) _

/-- **Decompression and the fused update succeed, and the one subtracts what the other gives.** -/
theorem fastUpdateError_eq (hw : 8 ≤ w) (hw' : w ≤ 32) (p : Params K) (rng : Rng)
    (buf : Mem (Cell w K)) (src : Mem K) {len size : ℕ} (hlen : len < 2 ^ 64)
    (hsize : len ≤ size / sizeofIndex w) (error dst : Mem K) :
    ∃ error' dst',
      fastUpdateError p size error src (compress p rng buf src len).2.1
        (compress p rng buf src len).2.2 = .ok error' ∧
      decompress p size dst (compress p rng buf src len).2.1
        (compress p rng buf src len).2.2 = .ok dst' ∧
      ∀ j < len, error' j = src j - dst' j := by
  have hx := encodable_items (quantize p (scale p src len)) src rng hlen
  obtain ⟨n, -, hn⟩ := (holds_compress hw p rng buf src len).readAll hw hw' hx
  refine ⟨_, _, hn _ _ _, hn _ _ _, fun j hj => ?_⟩
  have hj' : j < size / sizeofIndex w := Nat.lt_of_lt_of_le hj hsize
  refine foldl_sub _ _ j (hx.sorted.sublist (List.take_sublist _ _)) ?_ fun _ _ _ => ?_
  · unfold memcpy memset
    rw [if_pos hj', if_pos hj', sub_zero]
  · unfold memset
    rw [if_pos hj']

end Write

end DeepInc.Compressor.Dithering
