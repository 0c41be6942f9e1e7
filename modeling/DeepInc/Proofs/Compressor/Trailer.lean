/-
What stands behind the stream of `DitheringCompressor`.

`CompressImpl` puts the number of bits and the scale behind the stream, and nothing says where
that is: `DecompressImpl` computes the number of words from the size of the tensor, and reads
the number of bits behind them.  So three numbers have to agree, the words that were counted,
the words that are found and the bits that are stored.

The words agree in any case, since the size was computed from them.  The bits do unless they
are cut off at the width of a word, and they lie in the words unless `blocks()`, whose quotient
is a `float`, was rounded down.  Then the loop visits what was written, provided that it can
read it at all: with words of 64 bits it cannot read the first bit.

Nothing keeps the stream from outgrowing the buffer either, which is as long as the gradient.
What is written ends where the last word of the stream or the scale does, and both only move
up with the number of bits, so that the longest stream decides.
-/
import DeepInc.Proofs.Compressor.StreamSize

namespace DeepInc.Compressor.Dithering

open BitWriter

/-! ### Finding the stream

The levels and the scale stay variables: what is found does not depend on how they were
computed. -/

section Find

variable {w : ℕ} {K : Type} [Field K] [LinearOrder K]

/--
What `DecompressImpl` and `FastUpdateErrorImpl` find in the tensor of a gradient: the words
and the bits that were counted after `Flush`, these bits in these words, and in the loop every
element that was written and no other, whatever is done with it.
-/
structure FindsStream (quantize : K → Rng → BitVec 32 × Rng) (scale : K) (rng : Rng)
    (buf : Mem (Cell w K)) (src : Mem K) (len : ℕ) : Prop where
  blocks : blocks w (compressFloat quantize scale rng buf src len).2.2 =
    (encodeAll quantize rng buf src len).writer.flush.numBlocksFloat
  bits : ((compressFloat quantize scale rng buf src len).2.1
    (Dithering.blocks w (compressFloat quantize scale rng buf src len).2.2)).asIndex.toNat =
      (encodeAll quantize rng buf src len).writer.flush.bits
  fits : (encodeAll quantize rng buf src len).writer.flush.bits ≤
    Dithering.blocks w (compressFloat quantize scale rng buf src len).2.2 * w
  loop : ∀ (value : K → Bool → BitVec 32 → K) (visit : Mem K → ℕ → K → Mem K) (m : Mem K),
    readAll value visit (compressFloat quantize scale rng buf src len).2.1
        (compressFloat quantize scale rng buf src len).2.2 m =
      .ok ((items quantize src rng (List.range len)).foldl
        (fun m x => visit m x.index (value scale x.signbit x.quantized)) m)

variable (quantize : K → Rng → BitVec 32 × Rng) (scale : K) (rng : Rng) (buf : Mem (Cell w K))
  (src : Mem K) (len : ℕ)

/-- The number of words is found in any case. -/
theorem blocks_compressFloat (hw : 8 ≤ w) :
    blocks w (compressFloat quantize scale rng buf src len).2.2 =
      ceilFloat w (streamBits quantize rng src len) := by
  rw [← bits_encodeAll (show 0 < w by omega) quantize rng buf src len]
  exact blocks_putTrailer hw _ _ _

/-- The number of bits is cut off. -/
theorem bits_compressFloat (hw : 8 ≤ w) : ((compressFloat quantize scale rng buf src len).2.1
    (blocks w (compressFloat quantize scale rng buf src len).2.2)).asIndex.toNat =
      streamBits quantize rng src len % 2 ^ w := by
  have hblocks := blocks_putTrailer hw (encodeAll quantize rng buf src len).writer.flush.numBlocksFloat
    (encodeAll quantize rng buf src len).writer.flush scale
  unfold compressFloat
  simp only
  rw [hblocks, bits_putTrailer, bits_encodeAll (by omega)]

/-- The loop over words of 16 or 32 bits visits the elements. -/
theorem readAll_compressFloat (hw : 8 ≤ w) (hw' : w ≤ 32) {len : ℕ} (hlen : len < 2 ^ 64)
    (hlt : streamBits quantize rng src len < 2 ^ w)
    (hfits : streamBits quantize rng src len ≤ ceilFloat w (streamBits quantize rng src len) * w)
    (value : K → Bool → BitVec 32 → K) (visit : Mem K → ℕ → K → Mem K) (m : Mem K) :
    readAll value visit (compressFloat quantize scale rng buf src len).2.1
        (compressFloat quantize scale rng buf src len).2.2 m =
      .ok ((items quantize src rng (List.range len)).foldl
        (fun m x => visit m x.index (value scale x.signbit x.quantized)) m) := by
  have hwritten := bits_encodeAll (show 0 < w by omega) quantize rng buf src len
  have hholds : Holds (compressFloat quantize scale rng buf src len).2.1
      (compressFloat quantize scale rng buf src len).2.2
      (items quantize src rng (List.range len)) scale := by
    refine holds_putTrailer hw quantize scale rng buf src ?_
    rw [numBlocksFloat, hwritten]
    exact hfits
  obtain ⟨n, hall, hn⟩ := hholds.readAll hw hw' (encodable_items quantize src rng hlen)
  have hcount : ((compressFloat quantize scale rng buf src len).2.1
      (blocks w (compressFloat quantize scale rng buf src len).2.2)).asIndex.toNat =
        streamBits quantize rng src len := by
    rw [bits_compressFloat quantize scale rng buf src len hw, Nat.mod_eq_of_lt hlt]
  rw [hn value visit m, hall hcount, List.take_length]

/-- Where no element is written, the loop does not run. -/
theorem readAll_compressFloat_none (hw : 8 ≤ w) (h0 : streamBits quantize rng src len = 0)
    (value : K → Bool → BitVec 32 → K) (visit : Mem K → ℕ → K → Mem K) (m : Mem K) :
    readAll value visit (compressFloat quantize scale rng buf src len).2.1
        (compressFloat quantize scale rng buf src len).2.2 m =
      .ok ((items quantize src rng (List.range len)).foldl
        (fun m x => visit m x.index (value scale x.signbit x.quantized)) m) := by
  have hbits := bits_compressFloat quantize scale rng buf src len hw
  have hnone : items quantize src rng (List.range len) = [] := by
    cases hitems : items quantize src rng (List.range len) with
    | nil => rfl
    | cons x xs =>
        unfold streamBits at h0
        rw [hitems, encode, List.length_append, List.length_cons] at h0
        omega
  rw [h0, Nat.zero_mod] at hbits
  unfold readAll
  simp only [hbits, hnone]
  rfl

end Find

/--
**The stream is found again when its length fits in a word** and is not rounded below its
last word, up to `2 ^ 24` bits it is not; and in words of 64 bits when there is nothing to read.
-/
theorem findsStream_iff {K : Type} [Field K] [LinearOrder K] (dtype : DataType)
    (hdtype : Compressible dtype) (quantize : K → Rng → BitVec 32 × Rng) (scale : K) (rng : Rng)
    (buf : Mem (Cell (scalarBits dtype) K)) (src : Mem K) {len : ℕ} (hlen : len < 2 ^ 64) :
    FindsStream quantize scale rng buf src len ↔
      streamBits quantize rng src len < 2 ^ scalarBits dtype ∧
        streamBits quantize rng src len ≤
          ceilFloat (scalarBits dtype) (streamBits quantize rng src len) * scalarBits dtype ∧
        (dtype = .float64 → streamBits quantize rng src len = 0) := by
  have hw := eight_le_scalarBits dtype
  have hwritten := bits_encodeAll (show 0 < scalarBits dtype by omega) quantize rng buf src len
  have hblocks := blocks_compressFloat quantize scale rng buf src len hw
  have hbits := bits_compressFloat quantize scale rng buf src len hw
  constructor
  · intro h
    have hcut := h.bits
    have hfits := h.fits
    rw [hbits, hwritten] at hcut
    rw [hblocks, hwritten] at hfits
    refine ⟨?_, hfits, ?_⟩
    · rw [← hcut]
      exact Nat.mod_lt _ (Nat.two_pow_pos _)
    · rintro rfl
      by_contra hne
      rw [hcut] at hbits
      have herror := @readAll_error K (compressFloat quantize scale rng buf src len).2.1
        (compressFloat quantize scale rng buf src len).2.2
        (Nat.lt_of_lt_of_eq (Nat.pos_of_ne_zero hne) hbits.symm) (fun _ _ _ => 0) (fun m _ _ => m)
        fun _ => 0
      cases (h.loop _ _ _).symm.trans herror
  · rintro ⟨hlt, hfits, hdouble⟩
    refine ⟨?_, ?_, ?_, fun value visit m => ?_⟩
    · rw [hblocks, numBlocksFloat, hwritten]
    · rw [hbits, hwritten, Nat.mod_eq_of_lt hlt]
    · rw [hblocks, hwritten]
      exact hfits
    · by_cases h64 : dtype = .float64
      · exact readAll_compressFloat_none quantize scale rng buf src len hw (hdouble h64) value visit m
      · have hw' : scalarBits dtype ≤ 32 := by
          cases dtype with
          | float16 | float32 => decide
          | float64 => exact absurd rfl h64
          | _ => exact hdtype.elim
        exact readAll_compressFloat quantize scale rng buf src hw hw' hlen hlt hfits value visit m

/-- The linear partition, with the greatest absolute value as the scale. -/
def maxParams (s : BitVec 32) : Params ℚ := { s := s, ptype := .linear, ntype := .max, sqrt := id }

/-- Four elements of 32 bits at one level, and four of 64 bits that are all rounded to zero. -/
theorem findsStream_iff_four :
    FindsStream (quantizeFloat 1 1) 1 ⟨1, 2⟩ (fun _ => (0, 0) : Mem (Cell (scalarBits .float32) ℚ))
        (fun _ => 1) 4 ∧
      FindsStream (fun _ rng => (0, rng)) 1 ⟨1, 2⟩
        (fun _ => (0, 0) : Mem (Cell (scalarBits .float64) ℚ)) (fun _ => 1) 4 := by
  have hbits : streamBits (quantizeFloat 1 1) ⟨1, 2⟩ (fun _ => 1) 4 = 12 :=
    streamBits_ones (by decide) (by decide) _
  refine ⟨(findsStream_iff .float32 trivial _ 1 ⟨1, 2⟩ _ _ (show 4 < 2 ^ 64 by decide)).mpr ?_,
    (findsStream_iff .float64 trivial _ 1 ⟨1, 2⟩ _ _ (show 4 < 2 ^ 64 by decide)).mpr ?_⟩
  · rw [hbits, ceilFloat_eq .float32 trivial (by decide)]
    exact ⟨by decide, by decide, by decide⟩
  · have h0 : streamBits (fun (_ : ℚ) rng => (0, rng)) ⟨1, 2⟩ (fun _ => 1) 4 = 0 :=
      streamBits_eq (s := 0) (by decide) (fun _ _ _ => rfl) _
    rw [h0]
    exact ⟨by decide, Nat.zero_le _, fun _ => rfl⟩

/-- Ones in `FLOAT16`, three bits each: two of the bits are left. -/
theorem long_half_stream_lost :
    let scale := scale (maxParams 1) (fun _ => 1) 21846
    ¬FindsStream (quantizeFloat 1 scale) scale ⟨1, 2⟩
      (fun _ => (0, 0) : Mem (Cell (scalarBits .float16) ℚ)) (fun _ => 1) 21846 := by
  rw [scale_ones rfl (by decide)]
  intro scale h
  have hbits : streamBits (quantizeFloat 1 1) ⟨1, 2⟩ (fun _ => 1) 21846 = 65538 :=
    streamBits_ones (by decide) (by decide) _
  have hcut := h.bits
  rw [bits_compressFloat _ _ _ _ _ _ (by decide), bits_encodeAll (by decide), hbits] at hcut
  exact absurd hcut (by decide)

/-! ### Outgrowing the buffer

A store ends where its word does, so that a list of stores stays below a bound exactly if the
last word of the stream and the scale behind its trailer do. -/

section Stores

/-- Where the stream of so many bits and what is behind it end. -/
def storedBytes (w bits : ℕ) : ℕ :=
  max ((bits + (w - 1)) / w * sizeofIndex w) ((ceilFloat w bits + 1) * sizeofIndex w + sizeofFloat)

theorem storedBytes_mono (w : ℕ) {m n : ℕ} (h : m ≤ n) : storedBytes w m ≤ storedBytes w n := by
  refine max_le_max (Nat.mul_le_mul_right _ (Nat.div_le_div_right (by omega)))
    (Nat.add_le_add_right (Nat.mul_le_mul_right _ (Nat.succ_le_succ (ceilFloat_mono w h))) _)

variable {w : ℕ} {K : Type}

theorem compressStores_staysBelow_iff {b : BitWriter w K} (hused : b.usedBits < w) {n : ℕ} :
    StaysBelow n (compressStores b) ↔ storedBytes w b.bits ≤ n := by
  unfold compressStores storedBytes
  simp only
  rw [words_eq hused, staysBelow_append, staysBelow_map, max_le_iff, staysBelow_cons,
    staysBelow_cons]
  simp only [stop_store, staysBelow_nil, and_true, numBlocksFloat]
  refine and_congr ⟨fun h => ?_, fun h i hi => ?_⟩ ⟨fun h => h.2, fun h => ⟨?_, h⟩⟩
  · cases hwords : (b.bits + (w - 1)) / w with
    | zero => omega
    | succ k =>
        have := h k (List.mem_range.mpr (by omega))
        rw [Nat.succ_mul]
        exact this
  · have := Nat.mul_le_mul_right (sizeofIndex w) (List.mem_range.mp hi)
    rw [Nat.succ_mul] at this
    omega
  · rw [Nat.succ_mul] at h
    omega

variable [Field K] [LinearOrder K]

theorem encodeAll_staysBelow_iff (hw : 0 < w) (quantize : K → Rng → BitVec 32 × Rng) (rng : Rng)
    (buf : Mem (Cell w K)) (src : Mem K) (len : ℕ) {n : ℕ} :
    StaysBelow n (compressStores (encodeAll quantize rng buf src len).writer) ↔
      storedBytes w (streamBits quantize rng src len) ≤ n := by
  have hwrote := wrote_encodeAll hw quantize rng buf src len
  rw [compressStores_staysBelow_iff hwrote.usedBits_lt, hwrote.bits]
  rfl

end Stores

/-- The numbers of a data type of up to 24 significant bits. -/
def IsScalar (dtype : DataType) (x : ℚ) : Prop :=
  match dtype with
  | .float16 => Ieee.round 11 x = x
  | .float32 => Ieee.round 24 x = x
  | _ => False

end DeepInc.Compressor.Dithering
