/-
Error feedback loses no gradient.

What a compressor sends and what it leaves in the error buffer make up the corrected gradient:
`Splits` says so of one call, and every compressor does, in exact arithmetic.  For each of them
this is a fact about its own loops, the fused update of the error among them.

The correction adds the error back in terms of the learning rate it was left at.  Multiplied by
the learning rate of its own call, each corrected gradient is the gradient plus the error that
was left before, so the calls telescope: the gradients, each at its learning rate, are what was
sent plus the error that is left.

No learning rate has to be constant for this, and none is.  The error before the first call
counts as well; it is zero in a buffer that was just made.
-/
import DeepInc.Compressor.ErrorFeedback
import DeepInc.Proofs.Compressor.Dithering
import DeepInc.Proofs.Compressor.Onebit
import DeepInc.Proofs.Compressor.Sparse
import Mathlib.Algebra.Order.Floor.Semiring
import Mathlib.Data.Rat.Floor
import Mathlib.Tactic.LinearCombination

namespace DeepInc.Compressor

variable {w : ℕ} {K : Type} [Field K]

/-! ### One call of a compressor

`Splits` asks for three calls in a row, as error feedback makes them: compression, the fused
update with what was compressed, and decompression.  Each compressor has a lemma of its own,
because the fused update is written by hand in each; what they share is that decompression gives
the values the update takes away.
-/

/-- The error buffer is left with what decompression does not give back. -/
def Impl.Splits (c : Impl w K) (len : ℕ) : Prop :=
  ∀ (rng : Rng) (buf : Mem (Cell w K)) (src error dst : Mem K), ∃ rng' data size error' dst',
    c.compress rng buf src len = .ok (rng', data, size) ∧
      c.fastUpdateError error src data size = .ok error' ∧
      c.decompress dst data size = .ok dst' ∧
      ∀ j < len, error' j = src j - dst' j

section Kinds

/-- Positions that are sent are cleared, and the others are zero after decompression. -/
theorem Sparse.sub_eq (hw : 8 ≤ w) {src : Mem K} {sel : List ℕ} {len k size : ℕ}
    (hlen : len ≤ 2 ^ w) (hsize : len ≤ size / sizeofIndex w) (hk : sel.length = k)
    (hsel : ∀ j ∈ sel, j < len) (buf : Mem (Cell w K)) (error dst : Mem K) {j : ℕ} (hj : j < len) :
    Sparse.fastUpdateError size k error src (setPairs buf (pairsOf w src sel)) j =
      src j - Sparse.decompress size dst (setPairs buf (pairsOf w src sel))
        (k * Sparse.sizeofPair w) j := by
  rw [Sparse.fastUpdateError_pairsOf hlen hsel hsize error src buf hk hj,
    Sparse.decompress_pairsOf hw hlen hsel hsize dst buf hk hj]
  split
  · rw [sub_self]
  · rw [sub_zero]

theorem Randomk.splits (hw : 8 ≤ w) {k len size : ℕ} (hk : k ≤ len / 2) (hlen : len ≤ 2 ^ w)
    (hsize : len ≤ size / sizeofIndex w) : (Randomk.impl w K size k).Splits len := by
  intro rng buf src error dst
  refine ⟨_, _, _, _, _, Randomk.compress_eq hk rng buf src, rfl, rfl, fun j hj => ?_⟩
  exact Sparse.sub_eq hw hlen hsize (Randomk.length_selected len k rng)
    (Randomk.selected_lt (by omega) k rng) buf error dst hj

variable [LinearOrder K]

theorem Onebit.splits (hw : 8 ≤ w) (useScale : Bool) (len : ℕ) :
    (Onebit.impl w K useScale).Splits len := by
  intro rng buf src error dst
  refine ⟨_, _, _, _, _, rfl, rfl, rfl, fun j hj => ?_⟩
  refine Onebit.fastUpdateError_eq error src dst _ (Onebit.compress useScale buf src len).2 ?_
  rw [Onebit.chunks_compress hw]
  exact Nat.lt_of_lt_of_le hj (Onebit.le_chunkLen (by omega) len)

theorem Topk.splits (hw : 8 ≤ w) {k len size : ℕ} (hk : k ≤ len / 2) (hlen : len ≤ 2 ^ w)
    (hsize : len ≤ size / sizeofIndex w) : (Topk.impl w K size k).Splits len := by
  intro rng buf src error dst
  refine ⟨rng, _, _, _, _, congrArg (Except.map fun r => (rng, r)) (Topk.compress_eq hk buf src),
    rfl, rfl, fun j hj => ?_⟩
  exact Sparse.sub_eq hw hlen hsize (Topk.length_selected hk src) (Topk.selected_lt k src len)
    buf error dst hj

theorem Dithering.splits [FloorSemiring K] (hw : 8 ≤ w) (hw' : w ≤ 32)
    (p : Dithering.Params K) {len size : ℕ} (hlen : len < 2 ^ 64)
    (hsize : len ≤ size / sizeofIndex w) : (Dithering.impl w p size).Splits len := by
  intro rng buf src error dst
  obtain ⟨error', dst', herror, hdst, hsub⟩ :=
    Dithering.fastUpdateError_eq hw hw' p rng buf src hlen hsize error dst
  exact ⟨_, _, _, error', dst', rfl, herror, hdst, hsub⟩

/-- Every compressor, for words of up to 32 bits. -/
theorem Kind.splits [FloorSemiring K] (kind : Kind K) (hw : 8 ≤ w) (hw' : w ≤ 32) {len size : ℕ}
    (hchecks : kind.Checks len) (hlen : len ≤ 2 ^ w) (hsize : len ≤ size / sizeofIndex w) :
    (kind.impl w size).Splits len := by
  cases kind with
  | onebit useScale => exact Onebit.splits hw useScale len
  | topk k => exact Topk.splits hw hchecks hlen hsize
  | randomk k => exact Randomk.splits hw hchecks hlen hsize
  | dithering p =>
      have hpow : 2 ^ w ≤ 2 ^ 32 := Nat.pow_le_pow_right (by decide) hw'
      exact Dithering.splits hw hw' p (by omega) hsize

/-- A compressor whose check fails returns nothing. -/
theorem Kind.checks_of_compress [FloorSemiring K] {kind : Kind K} {len size : ℕ} {rng : Rng}
    {buf : Mem (Cell w K)} {src : Mem K} {r : Rng × Mem (Cell w K) × ℕ}
    (h : (kind.impl w size).compress rng buf src len = .ok r) : kind.Checks len := by
  cases kind with
  | onebit | dithering => trivial
  | topk k =>
      by_contra hk
      have hcompress : Topk.compress k buf src len = .error .checkK := if_neg hk
      have h' : (Topk.compress k buf src len).map (fun r => (rng, r)) = .ok r := h
      rw [hcompress] at h'
      cases h'
  | randomk k =>
      by_contra hk
      have hcompress : Randomk.compress k rng buf src len = .error .checkK := if_neg hk
      have h' : Randomk.compress k rng buf src len = .ok r := h
      rw [hcompress] at h'
      cases h'

/--
**The fused update is decompression and subtraction.**  The bytes of a partition are counted
by an `unsigned int`, and its compressor is made for them, aligned.
-/
theorem Kind.fastUpdateError_eq_sub_decompress [FloorSemiring K] (kind : Kind K) {len : ℕ}
    (hlen : len * getDataTypeLength .float32 < 2 ^ 32) {rng rng' : Rng}
    {buf data : Mem (Cell (scalarBits .float32) K)} {p : Mem K} {compressedSize : ℕ}
    (hcompress : (kind.impl (scalarBits .float32)
      (align (len * getDataTypeLength .float32) .float32)).compress rng buf p len =
        .ok (rng', data, compressedSize)) (error dst : Mem K) :
    ∃ error' dst',
      (kind.impl (scalarBits .float32)
        (align (len * getDataTypeLength .float32) .float32)).fastUpdateError
          error p data compressedSize = .ok error' ∧
      (kind.impl (scalarBits .float32)
        (align (len * getDataTypeLength .float32) .float32)).decompress
          dst data compressedSize = .ok dst' ∧
      ∀ j < len, error' j = p j - dst' j := by
  have hchecks := Kind.checks_of_compress hcompress
  have hfits : len ≤ 2 ^ scalarBits .float32 :=
    Nat.le_of_lt (Nat.lt_of_le_of_lt (Nat.le_mul_of_pos_right len (by decide)) hlen)
  obtain ⟨rng₁, data₁, size₁, error', dst', h₁, herror, hdst, hsub⟩ :=
    kind.splits (by decide) (by decide) hchecks hfits (le_align len .float32) rng buf p error dst
  rw [hcompress] at h₁
  cases h₁
  exact ⟨error', dst', herror, hdst, hsub⟩

/-- Four elements, two of which are sent at random. -/
theorem Kind.fastUpdateError_eq_sub_decompress_four : ∃ rng' data compressedSize error' dst',
    ((Kind.randomk 2).impl (scalarBits .float32) (align (4 * 4) .float32)).compress ⟨1, 2⟩
        (fun _ => (0, 0)) (fun i => (i : ℚ)) 4 = .ok (rng', data, compressedSize) ∧
      ((Kind.randomk 2).impl (scalarBits .float32) (align (4 * 4) .float32)).fastUpdateError
        (fun _ => 1) (fun i => (i : ℚ)) data compressedSize = .ok error' ∧
      ((Kind.randomk 2).impl (scalarBits .float32) (align (4 * 4) .float32)).decompress
        (fun _ => 0) data compressedSize = .ok dst' ∧
      ∀ j < 4, error' j = (j : ℚ) - dst' j := by
  obtain ⟨rng', data, n, hcompress⟩ : ∃ rng' data n,
      ((Kind.randomk 2).impl (scalarBits .float32) (align (4 * 4) .float32)).compress ⟨1, 2⟩
        (fun _ => (0, 0)) (fun i => (i : ℚ)) 4 = .ok (rng', data, n) := ⟨_, _, _, rfl⟩
  obtain ⟨error', dst', h⟩ :=
    Kind.fastUpdateError_eq_sub_decompress (.randomk 2) (by decide) hcompress (fun _ => 1) fun _ => 0
  exact ⟨rng', data, n, error', dst', hcompress, h⟩

end Kinds

namespace ErrorFeedback

/-! ### A call with error feedback -/

section Calls

variable {c : Impl w K} {len : ℕ}

/-- What is sent and what is left is the gradient and what was left before. -/
theorem compress_splits (hc : c.Splits len) (e : ErrorFeedback w K) {lr : K} (hlr : lr ≠ 0)
    (grad dst : Mem K) : ∃ e' t d, e.compress c lr grad len = .ok (e', t) ∧
      decompress c dst t = .ok d ∧ e'.preLr = lr ∧
      ∀ j < len, lr * d j + e'.preLr * e'.error j = lr * grad j + e.preLr * e.error j := by
  obtain ⟨rng', data, size, error', d, hcompress, herror, hd, hsub⟩ :=
    hc e.rng e.buf (e.updateGradient lr grad len).2 e.error dst
  refine ⟨{ error := error', preLr := lr, rng := rng', buf := data }, ⟨data, size⟩, d, ?_, hd, rfl,
    fun j hj => ?_⟩
  · unfold compress
    simp only [updateGradient] at hcompress herror ⊢
    rw [hcompress]
    simp only [bind, Except.bind]
    rw [herror]
  · have hgrad : (e.updateGradient lr grad len).2 j = grad j + e.preLr / lr * e.error j := if_pos hj
    have hcancel : lr * (e.preLr / lr) = e.preLr := mul_div_cancel₀ e.preLr hlr
    simp only [hsub j hj, hgrad]
    linear_combination e.error j * hcancel

/-! ### All calls

The sum over the calls is an induction on them from the left, with the error buffer as what the
calls before have left.  At the end of it nothing of the error buffers in between is left.
-/

/-- The values of an element, each at its learning rate. -/
def weighted (steps : List (Step K)) (ds : List (Mem K)) (j : ℕ) : K :=
  (List.zipWith (fun s d => s.lr * d j) steps ds).sum

theorem compressAll_splits (hc : c.Splits len) (dst : Mem K) (e : ErrorFeedback w K)
    {steps : List (Step K)} (hlr : ∀ s ∈ steps, s.lr ≠ 0) :
    ∃ e' ts ds, e.compressAll c len steps = .ok (e', ts) ∧
      ts.mapM (decompress c dst) = .ok ds ∧ ds.length = steps.length ∧
      e'.preLr = (steps.map (·.lr)).getLastD e.preLr ∧
      ∀ j < len, weighted steps ds j + e'.preLr * e'.error j =
        (steps.map fun s => s.lr * s.grad j).sum + e.preLr * e.error j := by
  induction steps generalizing e with
  | nil =>
      refine ⟨e, [], [], rfl, rfl, rfl, rfl, fun j hj => ?_⟩
      simp [weighted]
  | cons s steps ih =>
      obtain ⟨e₁, t, d, hcompress, hd, hpre, hone⟩ :=
        compress_splits hc e (hlr s List.mem_cons_self) s.grad dst
      obtain ⟨e', ts, ds, hrest, hds, hlen, hlast, hall⟩ :=
        ih e₁ fun s' hs' => hlr s' (List.mem_cons_of_mem s hs')
      refine ⟨e', t :: ts, d :: ds, ?_, ?_, by simp [hlen], ?_, fun j hj => ?_⟩
      · rw [compressAll, hcompress]
        simp only [bind, Except.bind]
        rw [hrest]
      · rw [List.mapM_cons, hd]
        simp only [bind, Except.bind]
        rw [hds]
        rfl
      · rw [hlast, List.map_cons, List.getLastD_cons, hpre]
      · have h₁ := hone j hj
        have h₂ := hall j hj
        simp only [weighted, List.zipWith_cons_cons, List.map_cons, List.sum_cons] at h₂ ⊢
        linear_combination h₁ + h₂

end Calls

/--
**No gradient is lost.**  Over any calls of `Compress`, on gradients of `len` elements, what
is sent at each learning rate, plus the error buffer at the last one, is the gradients at
their learning rates.  The first argument of `new` is the learning rate the constructor
reads; `dst` is what decompression writes to.
-/
theorem weighted_add_error_eq [LinearOrder K] [FloorSemiring K] (kind : Kind K) {len size : ℕ}
    (hchecks : kind.Checks len) (hlen : 4 * len < 2 ^ 32) (hsize : 4 * len ≤ size) (lr₀ : K)
    (rng : Rng) (buf : Mem (Cell (scalarBits .float32) K)) (steps : List (Step K)) (last : Step K)
    (hlr : ∀ s ∈ steps ++ [last], s.lr ≠ 0) (dst : Mem K) :
    ∃ e ts ds, (new lr₀ rng buf).compressAll (kind.impl (scalarBits .float32) size) len
        (steps ++ [last]) = .ok (e, ts) ∧
      ts.mapM (decompress (kind.impl (scalarBits .float32) size) dst) = .ok ds ∧
      ds.length = (steps ++ [last]).length ∧
      ∀ j < len, (List.zipWith (fun s d => s.lr * d j) (steps ++ [last]) ds).sum +
          last.lr * e.error j = ((steps ++ [last]).map fun s => s.lr * s.grad j).sum := by
  have hwidth : scalarBits .float32 = 32 := rfl
  have hc : (kind.impl (scalarBits .float32) size).Splits len := by
    refine kind.splits ?_ ?_ hchecks ?_ ?_
    · rw [hwidth]
      decide
    · rw [hwidth]
    · rw [hwidth]
      omega
    · rw [hwidth]
      unfold sizeofIndex
      omega
  obtain ⟨e, ts, ds, hrun, hds, hcount, hlast, hall⟩ :=
    compressAll_splits hc dst (new lr₀ rng buf) hlr
  refine ⟨e, ts, ds, hrun, hds, hcount, fun j hj => ?_⟩
  have hpre : e.preLr = last.lr := by
    rw [hlast]
    simp
  have := hall j hj
  rw [hpre] at this
  simpa [weighted, new] using this

/-- Two gradients of four elements through top-k, with a learning rate that is halved. -/
theorem weighted_add_error_eq_topk : ∃ e ts ds,
    (new (1 : ℚ) ⟨1, 2⟩ fun _ => (0, 0)).compressAll ((Kind.topk 2).impl (scalarBits .float32) 16) 4
        ([⟨1, fun i => i⟩] ++ [⟨1 / 2, fun _ => -1⟩]) = .ok (e, ts) ∧
      ts.mapM (decompress ((Kind.topk 2).impl (scalarBits .float32) 16) fun _ => 0) = .ok ds ∧
      ds.length = 2 ∧
      ∀ j < 4, (List.zipWith (fun (s : Step ℚ) d => s.lr * d j)
          ([⟨1, fun i => i⟩] ++ [⟨1 / 2, fun _ => -1⟩]) ds).sum + 1 / 2 * e.error j =
        (([⟨1, fun i => i⟩] ++ [⟨1 / 2, fun _ => -1⟩] : List (Step ℚ)).map
          fun s => s.lr * s.grad j).sum :=
  weighted_add_error_eq (K := ℚ) (.topk 2) (show 2 ≤ 4 / 2 by decide) (by decide) (by decide) 1
    ⟨1, 2⟩ _ [⟨1, fun i => i⟩] ⟨1 / 2, fun _ => -1⟩ (by simp) _

end ErrorFeedback

end DeepInc.Compressor
