/-
Records of a distance, a sign and a level in a stream.

The encoding loop of `DitheringCompressor` writes three things for every element it sends: the
distance from the last one, the sign and the level.  Here such records are written one after
another and read back in the same way, through `BitWriter` and `BitReader` and the code of Elias
on top of them.

Two facts carry the result.  What was written is the list of the records' code words, which the
buffer holds after `Flush`; and a reader that delivers these bits gives back the records,
because a code word says itself where it ends.

What is left is whether the reader delivers the bits.  `Get` tests a bit with `1 << n`, and the
one is an `int`.  With words of 16 and 32 bits, `n` stays below 32, and the bits are delivered.
With words of 64 bits the first bit already is tested with `1 << 63`, which is undefined: there
is no stream with a record in it that reads back, and the only one that does is the empty one.
-/
import DeepInc.Proofs.Compressor.BitStream
import Mathlib.Data.Rat.Defs

namespace DeepInc.Compressor

open EliasDelta

/-- What is sent of an element. -/
structure Record where
  diff : ℕ
  signbit : Bool
  quantized : ℕ
  deriving DecidableEq, Repr

/-- The numbers of a record are positive and below `2 ^ 32`. -/
structure Record.Valid (x : Record) : Prop where
  diff_pos : 1 ≤ x.diff
  diff_lt : x.diff < 2 ^ 32
  quantized_pos : 1 ≤ x.quantized
  quantized_lt : x.quantized < 2 ^ 32

/-- The bits of a record. -/
def Record.bits (x : Record) : List Bool := code x.diff ++ x.signbit :: code x.quantized

/-- The bits of records, one after another. -/
def stream (xs : List Record) : List Bool := xs.flatMap Record.bits

@[simp] theorem stream_nil : stream [] = [] := rfl

@[simp] theorem stream_cons (x : Record) (xs : List Record) :
    stream (x :: xs) = x.bits ++ stream xs := rfl

variable {w : ℕ} {K : Type}

/-- A record is written. -/
def BitWriter.putRecord [Zero K] (b : BitWriter w K) (x : Record) : BitWriter w K :=
  ((b.eliasDeltaEncode x.diff).put x.signbit).eliasDeltaEncode x.quantized

/-- A record is read. -/
def BitReader.getRecord (r : BitReader w K) : Except Fault (Record × BitReader w K) := do
  let (diff, r) ← r.eliasDeltaDecode
  let (signbit, r) ← r.get
  let (quantized, r) ← r.eliasDeltaDecode
  .ok (⟨diff, signbit, quantized⟩, r)

/-- So many records are read. -/
def BitReader.getRecords : ℕ → BitReader w K → Except Fault (List Record × BitReader w K)
  | 0, r => .ok ([], r)
  | n + 1, r => do
    let (x, r) ← r.getRecord
    let (xs, r) ← getRecords n r
    .ok (x :: xs, r)

/-- The writer after the records and `Flush`, on the buffer `buf`. -/
def written [Zero K] (buf : Mem (Cell w K)) (xs : List Record) : BitWriter w K :=
  (xs.foldl BitWriter.putRecord (.new buf)).flush

/-- The records are read back, and then the reader is where the writer stopped. -/
def ReadsBack [Zero K] (buf : Mem (Cell w K)) (xs : List Record) : Prop :=
  ∃ r', (BitReader.new (written buf xs).data).getRecords xs.length = .ok (xs, r') ∧
    r'.bits = (written buf xs).bits

/-! ### Writing -/

section Write

variable [Zero K]

theorem BitWriter.putRecord_eq (b : BitWriter w K) (x : Record) :
    b.putRecord x = b.putAll x.bits := by
  unfold putRecord Record.bits
  rw [eliasDeltaEncode_eq, eliasDeltaEncode_eq,
    show ((b.putAll (code x.diff)).put x.signbit) =
      (b.putAll (code x.diff)).putAll [x.signbit] from rfl,
    putAll_append, putAll_append]
  rfl

theorem BitWriter.foldl_putRecord (xs : List Record) (b : BitWriter w K) :
    xs.foldl putRecord b = b.putAll (stream xs) := by
  induction xs generalizing b with
  | nil => rfl
  | cons x xs ih => rw [List.foldl_cons, ih, putRecord_eq, putAll_append, stream_cons]

/-- The buffer holds the stream. -/
theorem getElem?_written (hw : 0 < w) (buf : Mem (Cell w K)) (xs : List Record) {i : ℕ}
    (hi : i < (stream xs).length) : (stream xs)[i]? = some (bitAt (written buf xs).data i) := by
  unfold written
  rw [BitWriter.foldl_putRecord]
  exact ((BitWriter.wrote_new hw buf).putAll (stream xs)).flush hi

theorem bits_written (hw : 0 < w) (buf : Mem (Cell w K)) (xs : List Record) :
    (written buf xs).bits = (stream xs).length := by
  unfold written
  rw [BitWriter.flush_bits, BitWriter.foldl_putRecord]
  exact ((BitWriter.wrote_new hw buf).putAll (stream xs)).bits

end Write

/-! ### Reading -/

section Read

variable {r r' : BitReader w K}

/-- The records whose bits are delivered are the ones that are read. -/
theorem BitReader.getRecords_stream {xs : List Record} (hxs : ∀ x ∈ xs, x.Valid)
    (h : Delivers BitReader.get r (stream xs) r') : r.getRecords xs.length = .ok (xs, r') := by
  induction xs generalizing r with
  | nil =>
      cases h
      rfl
  | cons x xs ih =>
      have hx := hxs x List.mem_cons_self
      have hdiff := hx.diff_pos
      have hdiff' := hx.diff_lt
      have hquantized := hx.quantized_pos
      have hquantized' := hx.quantized_lt
      rw [stream_cons] at h
      obtain ⟨r₁, hrecord, hrest⟩ := h.split
      obtain ⟨r₂, hd, hsign⟩ := hrecord.split
      cases hsign with
      | cons hb hq =>
          have hread : r.getRecord = .ok (x, r₁) := by
            unfold getRecord
            rw [eliasDeltaDecode_code (by omega) (by omega) hd]
            simp only [bind, Except.bind, hb]
            rw [eliasDeltaDecode_code (by omega) (by omega) hq]
          rw [List.length_cons, getRecords, hread]
          simp only [bind, Except.bind]
          rw [ih (fun y hy => hxs y (List.mem_cons_of_mem x hy)) hrest]

/-- A reader at the start of words of 64 bits reads no record. -/
theorem BitReader.getRecords_new {n : ℕ} (data : Mem (Cell 64 K)) :
    (new data).getRecords (n + 1) = .error .shift := by
  have hrecord : (new data).getRecord = .error .shift := by
    unfold getRecord
    rw [eliasDeltaDecode_new]
    rfl
  rw [getRecords, hrecord]
  rfl

end Read

/-! ### Both

The reader has to stop where the writer did, which is at the number of bits of the stream and
not at the end of a word.
-/

/-- Records in words of 16 or 32 bits are read back. -/
theorem readsBack_of_le [Zero K] (hw₀ : 0 < w) (hw : w ≤ 32) (buf : Mem (Cell w K))
    {xs : List Record} (hxs : ∀ x ∈ xs, x.Valid) : ReadsBack buf xs := by
  have hbits : ∀ i < (stream xs).length,
      (stream xs)[i]? = some (bitAt (written buf xs).data (0 + i)) := fun i hi => by
    rw [Nat.zero_add, getElem?_written hw₀ buf xs hi]
  obtain ⟨r', hdel, hat⟩ := (BitReader.at_new hw₀ (written buf xs).data).delivers hw hbits
  refine ⟨r', BitReader.getRecords_stream hxs hdel, ?_⟩
  rw [hat.bits, bits_written hw₀, Nat.zero_add]

/-- In words of 64 bits, the first record is not. -/
theorem not_readsBack_cons [Zero K] (buf : Mem (Cell 64 K)) (x : Record) (xs : List Record) :
    ¬ReadsBack buf (x :: xs) := by
  rintro ⟨r', hread, -⟩
  rw [List.length_cons, BitReader.getRecords_new] at hread
  cases hread

/--
**Records read back from words of 16 and 32 bits**, and from words of 64 bits only if there are
none of them: the first bit of a word is looked for with `1 << 63`.
-/
theorem readsBack_iff [Zero K] (hw : w = 16 ∨ w = 32 ∨ w = 64) (buf : Mem (Cell w K))
    {xs : List Record} (hxs : ∀ x ∈ xs, x.Valid) : ReadsBack buf xs ↔ (w = 64 → xs = []) := by
  constructor
  · rintro h rfl
    cases xs with
    | nil => rfl
    | cons x xs => exact absurd h (not_readsBack_cons buf x xs)
  · intro h
    by_cases hlong : w = 64
    · obtain rfl := h hlong
      have hnone : (stream []).length = 0 := rfl
      refine ⟨BitReader.new _, rfl, ?_⟩
      rw [(BitReader.at_new (by omega) _).bits, bits_written (by omega), hnone]
    · exact readsBack_of_le (by omega) (by omega) buf hxs

/-- Three records, in words of 16 bits. -/
theorem readsBack_three :
    ReadsBack (fun _ => (0, 0) : Mem (Cell 16 ℚ)) [⟨1, false, 3⟩, ⟨70, true, 1⟩, ⟨2, true, 9⟩] :=
  (readsBack_iff (.inl rfl) _ (by
    intro x hx
    simp only [List.mem_cons, List.not_mem_nil, or_false] at hx
    rcases hx with rfl | rfl | rfl <;> exact ⟨by decide, by decide, by decide, by decide⟩)).mpr
      fun h => absurd h (by decide)

/-- The first record already is lost in words of 64 bits. -/
theorem level_one_lost : ¬ReadsBack (fun _ => (0, 0) : Mem (Cell 64 ℚ)) [⟨1, false, 1⟩] :=
  not_readsBack_cons _ _ _

end DeepInc.Compressor
