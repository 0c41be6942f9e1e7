/-
The stream of bits in a buffer.

`BitWriter` collects bits in an accumulator of one word and stores it when it is full, and
`BitReader` looks for one bit of the buffer after the other.  Both are described by lists of
bits here, so that nothing after this file speaks of accumulators and masks.

A writer that was given a list of bits has stored all full words of it and holds the rest
(`Wrote`); after `Flush` the buffer holds the whole list.  A reader at a position of a buffer
delivers the bits from there on (`At`).  So what is written reads back, and with it the Elias
delta code, which is a function of lists in `Lib/EliasDelta.lean`.

The mask of a bit is `1 << n` with an `int` on the left.  In words of up to 32 bits no shift is
too far.  In the upper half of a word of 64 bits every one is, so that a reader of such words
fails at its first bit.
-/
import DeepInc.Compressor.Utils

namespace DeepInc.Compressor

open EliasDelta

variable {w : ℕ} {K : Type}

/-- Bit `i` of a buffer, the most significant bit of a word being its first. -/
def bitAt (data : Mem (Cell w K)) (i : ℕ) : Bool :=
  (data (i / w)).asIndex.getLsbD (w - 1 - i % w)

/-- The bits before a word do not change with it. -/
theorem bitAt_update_of_lt (data : Mem (Cell w K)) {n i : ℕ} (c : Cell w K) (hi : i < n * w) :
    bitAt (Function.update data n c) i = bitAt data i := by
  have hw : 0 < w := Nat.pos_of_ne_zero fun h => by simp [h] at hi
  have hdiv : i / w ≠ n := Nat.ne_of_lt ((Nat.div_lt_iff_lt_mul hw).mpr hi)
  unfold bitAt
  rw [Function.update_of_ne hdiv]

/-- The bits of a word. -/
theorem bitAt_word (data : Mem (Cell w K)) (n : ℕ) {j : ℕ} (hj : j < w) :
    bitAt data (n * w + j) = (data n).asIndex.getLsbD (w - 1 - j) := by
  unfold bitAt
  rw [Nat.mul_comm, Nat.mul_add_div (by omega), Nat.div_eq_of_lt hj, Nat.add_zero,
    Nat.mul_add_mod, Nat.mod_eq_of_lt hj]

/-! ### Writing -/

namespace BitWriter

/-- The writer was given the bits `bs`. -/
structure Wrote (b : BitWriter w K) (bs : List Bool) : Prop where
  usedBits_lt : b.usedBits < w
  bits : b.bits = bs.length
  stored : ∀ i < b.blocks * w, bs[i]? = some (bitAt b.data i)
  pending : ∀ i < b.usedBits,
    bs[b.blocks * w + i]? = some (b.accum.getLsbD (b.usedBits - 1 - i))

variable {b : BitWriter w K} {bs : List Bool}

theorem wrote_new (hw : 0 < w) (data : Mem (Cell w K)) : (new data).Wrote [] :=
  ⟨hw, by simp [new, BitWriter.bits], fun i hi => by simp [new] at hi, fun i hi => by simp [new] at hi⟩

/-- The words of `blocks()` have room for all bits. -/
theorem bits_le_numBlocks (hw : 0 < w) (b : BitWriter w K) : b.bits ≤ b.numBlocks * w := by
  have h₁ : w * b.numBlocks + (b.bits + (w - 1)) % w = b.bits + (w - 1) :=
    Nat.div_add_mod (b.bits + (w - 1)) w
  have h₂ := Nat.mod_lt (b.bits + (w - 1)) hw
  rw [Nat.mul_comm]
  omega

variable [Zero K]

/-- The bits of the accumulator after one more. -/
theorem getLsbD_put (a : BitVec w) (x : Bool) {i : ℕ} (hi : i < w) :
    ((a <<< 1) ||| BitVec.ofNat w x.toNat).getLsbD i =
      if i = 0 then x else a.getLsbD (i - 1) := by
  rw [BitVec.getLsbD_or, BitVec.getLsbD_shiftLeft, BitVec.getLsbD_ofNat, Nat.testBit_bool_toNat]
  cases i with
  | zero => simp [hi]
  | succ i => simp [hi]

theorem Wrote.put (h : b.Wrote bs) (x : Bool) : (b.put x).Wrote (bs ++ [x]) := by
  have hused := h.usedBits_lt
  have hlen : b.blocks * w + b.usedBits = bs.length := h.bits
  have hold : ∀ i < bs.length, (bs ++ [x])[i]? = bs[i]? := fun i hi => List.getElem?_append_left hi
  have haccum : ∀ i ≤ b.usedBits, (bs ++ [x])[b.blocks * w + i]? =
      some (((b.accum <<< 1) ||| BitVec.ofNat w x.toNat).getLsbD (b.usedBits - i)) := by
    intro i hi
    rw [getLsbD_put _ _ (by omega)]
    by_cases hlast : i = b.usedBits
    · rw [hlast, hlen, Nat.sub_self, if_pos rfl, List.getElem?_concat_length]
    · rw [hold _ (by omega), h.pending i (by omega), if_neg (by omega),
        show b.usedBits - i - 1 = b.usedBits - 1 - i by omega]
  unfold BitWriter.put
  by_cases hfull : b.usedBits + 1 = w
  · simp only [if_pos hfull]
    refine ⟨h.usedBits_lt.trans_le' (Nat.zero_le _), ?_, fun i hi => ?_, fun i hi => ?_⟩
    · simp only [BitWriter.bits, List.length_append, List.length_singleton, Nat.add_mul]
      omega
    · simp only [Nat.add_mul, Nat.one_mul] at hi ⊢
      by_cases hword : i < b.blocks * w
      · rw [hold i (by omega), h.stored i hword, bitAt_update_of_lt _ _ hword]
      · obtain ⟨j, rfl⟩ := Nat.exists_eq_add_of_le (Nat.le_of_not_lt hword)
        rw [haccum j (by omega), bitAt_word _ _ (by omega), Function.update_self,
          Cell.asIndex_index, show w - 1 - j = b.usedBits - j by omega]
    · cases hi
  · simp only [if_neg hfull]
    refine ⟨?_, ?_, fun i hi => ?_, fun i hi => ?_⟩
    · simp only
      omega
    · simp only [BitWriter.bits, List.length_append, List.length_singleton]
      omega
    · simp only at hi ⊢
      rw [hold i (by omega), h.stored i hi]
    · simp only at hi ⊢
      rw [haccum i (by omega), Nat.add_sub_cancel]

theorem Wrote.putAll (h : b.Wrote bs) (l : List Bool) : (b.putAll l).Wrote (bs ++ l) := by
  induction l generalizing b bs with
  | nil => simpa [BitWriter.putAll] using h
  | cons x l ih =>
      have := ih (h.put x)
      rwa [List.append_assoc] at this

/-- After `Flush` the buffer holds all bits. -/
theorem Wrote.flush (h : b.Wrote bs) {i : ℕ} (hi : i < bs.length) :
    bs[i]? = some (bitAt b.flush.data i) := by
  have hused := h.usedBits_lt
  have hlen : b.blocks * w + b.usedBits = bs.length := h.bits
  unfold BitWriter.flush
  by_cases hword : i < b.blocks * w
  · split
    · rw [h.stored i hword, bitAt_update_of_lt _ _ hword]
    · exact h.stored i hword
  · obtain ⟨j, rfl⟩ := Nat.exists_eq_add_of_le (Nat.le_of_not_lt hword)
    rw [if_pos (by omega), h.pending j (by omega), bitAt_word _ _ (by omega)]
    simp only
    rw [Function.update_self, Cell.asIndex_index, BitVec.getLsbD_shiftLeft,
      show w - 1 - j - (w - b.usedBits) = b.usedBits - 1 - j by omega]
    simp [show w - 1 - j < w by omega, show ¬w - 1 - j < w - b.usedBits by omega]

theorem flush_bits (b : BitWriter w K) : b.flush.bits = b.bits := by
  unfold BitWriter.flush
  split <;> rfl

theorem putAll_append (b : BitWriter w K) (l l' : List Bool) :
    (b.putAll l).putAll l' = b.putAll (l ++ l') := by
  unfold BitWriter.putAll
  rw [List.foldl_append]

/-- `EliasDeltaEncode` puts the code word. -/
theorem eliasDeltaEncode_eq (b : BitWriter w K) (x : ℕ) : b.eliasDeltaEncode x = b.putAll (code x) := by
  unfold BitWriter.eliasDeltaEncode code
  rw [putAll_append, putAll_append, Nat.add_comm 1, Nat.add_sub_cancel, List.append_assoc]

end BitWriter

/-! ### Reading

`Get` counts the bits of a word down and steps to the next word when none is left.  The position
a reader stands before is the number of bits it has delivered, and `Get` delivers the bit at
that position wherever the mask is defined.
-/

namespace BitReader

/-- Two words have a bit in common if their conjunction is not zero. -/
theorem and_bne_zero (x y : BitVec w) :
    (x &&& y != 0) = true ↔ ∃ i < w, x.getLsbD i = true ∧ y.getLsbD i = true := by
  rw [bne_iff_ne]
  constructor
  · intro hne
    by_contra hnone
    refine hne (BitVec.eq_of_getLsbD_eq fun i hi => ?_)
    rw [BitVec.getLsbD_and, show (0 : BitVec w).getLsbD i = false from BitVec.getLsbD_zero,
      Bool.eq_false_iff, ne_eq, Bool.and_eq_true]
    intro hand
    exact hnone ⟨i, hi, hand⟩
  · rintro ⟨i, hi, hx, hy⟩ hzero
    have := congrArg (fun z : BitVec w => z.getLsbD i) hzero
    simp [hx, hy] at this

/-- The bits of `1 << n`. -/
theorem getLsbD_one_shiftLeft (n : ℕ) {j : ℕ} (hj : j < 32) :
    ((1 : BitVec 32) <<< n).getLsbD j = decide (j = n) := by
  rw [BitVec.getLsbD_shiftLeft, show (1 : BitVec 32) = BitVec.ofNat 32 true.toNat from rfl,
    BitVec.getLsbD_ofNat, Nat.testBit_bool_toNat]
  by_cases hjn : j < n
  · simp [hjn, Nat.ne_of_lt hjn]
  · have heq : j - n = 0 ↔ j = n := by omega
    simp [hj, hjn, heq, show j - n < 32 by omega]

/-- With words of at most 32 bits, the mask of a bit is that bit. -/
theorem mask_eq_ok (hw : w ≤ 32) {n : ℕ} (hn : n < w) : ∃ m, mask w n = .ok m ∧
    ∀ x : BitVec w, (x &&& m != 0) = x.getLsbD n := by
  refine ⟨((1 : BitVec 32) <<< n).signExtend w, if_pos (by omega), fun x => ?_⟩
  have hmask : ∀ i < w, (((1 : BitVec 32) <<< n).signExtend w).getLsbD i = decide (i = n) := by
    intro i hi
    rw [BitVec.getLsbD_signExtend, decide_eq_true hi, Bool.true_and, if_pos (by omega),
      getLsbD_one_shiftLeft n (by omega)]
  rw [Bool.eq_iff_iff, and_bne_zero]
  constructor
  · rintro ⟨i, hi, hx, hm⟩
    rw [hmask i hi, decide_eq_true_iff] at hm
    rwa [← hm]
  · intro hx
    exact ⟨n, hn, hx, by rw [hmask n hn, decide_eq_true_iff]⟩

/-- The reader stands before bit `p` of the buffer. -/
structure At (data : Mem (Cell w K)) (r : BitReader w K) (p : ℕ) : Prop where
  reads : r.data = data
  usedBits_lt : r.usedBits < w
  position : p + r.usedBits = r.blocks * w
  word : 0 < r.usedBits → r.accum = (data (r.blocks - 1)).asIndex

variable {data : Mem (Cell w K)} {r : BitReader w K} {p : ℕ}

theorem at_new (hw : 0 < w) (data : Mem (Cell w K)) : At data (new data) 0 :=
  ⟨rfl, hw, by simp [new], fun h => by simp [new] at h⟩

theorem At.bits (h : At data r p) : r.bits = p := by
  have := h.position
  unfold BitReader.bits
  omega

/-- `Get` looks for the bit the reader stands before, and goes on to the next. -/
theorem At.get_eq (h : At data r p) : ∃ r', At data r' (p + 1) ∧
    r.get = (mask w (w - 1 - p % w)).map fun m => ((data (p / w)).asIndex &&& m != 0, r') := by
  have hused := h.usedBits_lt
  have hpos := h.position
  unfold BitReader.get
  by_cases h0 : r.usedBits = 0
  · have hp : p = r.blocks * w := by omega
    simp only [h0, if_true]
    rw [hp, Nat.mul_div_cancel _ (by omega), Nat.mul_mod_left, h.reads]
    refine ⟨⟨data, (data r.blocks).asIndex, w - 1, r.blocks + 1⟩,
      ⟨rfl, by simp only; omega, ?_, fun _ => by simp⟩, ?_⟩
    · simp only [Nat.add_mul]
      omega
    · simp only [Nat.sub_zero]
      cases mask w (w - 1) <;> rfl
  · have hblocks : r.blocks ≠ 0 := by
      rintro hb
      rw [hb] at hpos
      omega
    obtain ⟨n, hn⟩ := Nat.exists_eq_succ_of_ne_zero hblocks
    have hp : p = n * w + (w - r.usedBits) := by
      rw [hn, Nat.succ_mul] at hpos
      omega
    have hword := h.word (by omega)
    rw [hn, Nat.succ_sub_one] at hword
    simp only [h0, if_false]
    refine ⟨{ r with usedBits := r.usedBits - 1 },
      ⟨h.reads, by simp only; omega, by simp only; omega, fun _ => ?_⟩, ?_⟩
    · simpa [hn] using hword
    · rw [hword, hp, Nat.mul_comm n, Nat.mul_add_div (by omega), Nat.div_eq_of_lt (by omega),
        Nat.add_zero, Nat.mul_add_mod, Nat.mod_eq_of_lt (by omega),
        show w - 1 - (w - r.usedBits) = r.usedBits - 1 by omega]
      cases mask w (r.usedBits - 1) <;> rfl

/-- With words of at most 32 bits, `Get` delivers the bit the reader stands before. -/
theorem At.get (h : At data r p) (hw : w ≤ 32) :
    ∃ r', r.get = .ok (bitAt data p, r') ∧ At data r' (p + 1) := by
  have hused := h.usedBits_lt
  obtain ⟨r', hat, hget⟩ := h.get_eq
  obtain ⟨m, hm, hbit⟩ := mask_eq_ok hw (show w - 1 - p % w < w by omega)
  refine ⟨r', ?_, hat⟩
  rw [hget, hm, Except.map, hbit]
  rfl

/-- In the upper half of a word of 64 bits, it shifts too far. -/
theorem At.get_error {data : Mem (Cell 64 K)} {r : BitReader 64 K} (h : At data r p)
    (hp : p % 64 < 32) : r.get = .error .shift := by
  obtain ⟨r', -, hget⟩ := h.get_eq
  rw [hget, mask, if_neg (by omega)]
  rfl

/-- The reader delivers what the buffer holds from there on. -/
theorem At.delivers (h : At data r p) (hw : w ≤ 32) {bs : List Bool}
    (hbs : ∀ i < bs.length, bs[i]? = some (bitAt data (p + i))) :
    ∃ r', Delivers BitReader.get r bs r' ∧ At data r' (p + bs.length) := by
  induction bs generalizing r p with
  | nil => exact ⟨r, .nil r, h⟩
  | cons x bs ih =>
      obtain ⟨r₁, hget, hnext⟩ := h.get hw
      have hx : x = bitAt data p := by simpa using hbs 0 (by simp)
      obtain ⟨r', hdel, hat⟩ := ih hnext fun i hi => by
        have := hbs (i + 1) (by simpa using hi)
        rw [List.getElem?_cons_succ] at this
        rw [this, show p + (i + 1) = p + 1 + i by omega]
      refine ⟨r', .cons (hx ▸ hget) hdel, ?_⟩
      rw [List.length_cons, show p + (bs.length + 1) = p + 1 + bs.length by omega]
      exact hat

/-- `EliasDeltaDecode` reads a code word, of which it keeps 64 bits. -/
theorem eliasDeltaDecode_eq (r : BitReader w K) : r.eliasDeltaDecode =
    (EliasDelta.read BitReader.get .codeWord 31 r).map fun z => (z.1 % 2 ^ 64, z.2) := by
  unfold eliasDeltaDecode EliasDelta.read
  cases readZeros BitReader.get Fault.codeWord 31 r 0 with
  | error e => rfl
  | ok z =>
      simp only [bind, Except.bind]
      cases readDigits BitReader.get z.1 z.2 1 with
      | error e => rfl
      | ok len =>
          simp only
          cases readDigits BitReader.get (len.1 - 1) len.2 1 <;> rfl

/-- `EliasDeltaDecode` gives back the number of a code word. -/
theorem eliasDeltaDecode_code {r' : BitReader w K} {x : ℕ} (hx : x ≠ 0) (hlt : x < 2 ^ 64)
    (h : Delivers BitReader.get r (code x) r') : r.eliasDeltaDecode = .ok (x, r') := by
  have hlog : x.log2 < 64 := (Nat.log2_lt hx).mpr hlt
  have hcount : (x.log2 + 1).log2 < 31 := by
    refine (Nat.log2_lt (Nat.succ_ne_zero _)).mpr (Nat.lt_of_le_of_lt (show _ ≤ 64 by omega) ?_)
    decide
  rw [eliasDeltaDecode_eq, read_code hx hcount h, Except.map, Nat.mod_eq_of_lt hlt]

/-- A reader at the start of words of 64 bits decodes nothing. -/
theorem eliasDeltaDecode_new (data : Mem (Cell 64 K)) :
    (new data).eliasDeltaDecode = .error .shift := by
  have hget := (at_new (by decide) data).get_error (by decide)
  rw [eliasDeltaDecode_eq, read_of_get_error hget]
  rfl

end BitReader

end DeepInc.Compressor
