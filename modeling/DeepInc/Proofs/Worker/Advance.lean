/-
When the loops over the cuts advance.

Three loops cut a tensor into partitions: the one that makes the keys, the one that makes the
compressors, and `PartitionTensor`.  Every iteration adds the length of a cut to what has been
cut off, in the type the loop keeps it in, and goes on until the size is reached.  A loop
advances if every length it adds is the length of the cut and more than zero; then it ends.

The bound has to be positive for that, and where a length is an `int` no cut may be longer than
an `int` can be.  With a bound of zero the loops stay where they are.

The bound comes from the environment.  What `BYTEPS_PARTITION_BYTES` asks for goes through an
`int`, a `uint32_t`, a `size_t` and a `uint32_t` again, and is rounded up to pages of all local
workers in between; nothing checks what comes out.  A negative value is a large `uint32_t`;
close to `2 ^ 32` it is rounded up beyond it, and what is left is zero where the pages divide `2
^ 32`.

Put together, the values for which the loops advance are given outright: the positive ones, as
long as no cut is too long, and some of the negative ones.
-/
import DeepInc.Proofs.Worker.KeyEncoding
import DeepInc.Proofs.Worker.Partition

namespace DeepInc.Worker

variable {size bound : ℕ}

/-! ### The loops

The loops differ in the type a length is stored in, which is a parameter of one definition.
`Visits` are the bytes such a loop comes to.
-/

/-- The length of the cut at a byte. -/
def nextLen (size bound accumulated : ℕ) : ℕ :=
  if bound < size - accumulated then bound else size - accumulated

/-- The bytes a loop comes to. -/
inductive Visits (stored : ℕ → ℕ) (size bound : ℕ) : ℕ → Prop
  | start : Visits stored size bound 0
  | next {accumulated : ℕ} (h : Visits stored size bound accumulated) (hlt : accumulated < size) :
      Visits stored size bound (uint64 (accumulated + stored (nextLen size bound accumulated)))

/--
A loop that stores the length of a cut in some type, where it is the number `amount`, advances
in every iteration, and ends.
-/
structure Advances (stored : ℕ → ℕ) (amount : ℕ → ℤ) (size bound : ℕ) : Prop where
  advance : ∀ accumulated, Visits stored size bound accumulated → accumulated < size →
    0 < amount (nextLen size bound accumulated)
  ends : ∃ ranges, cuts stored size bound = .ok ranges

/-- The three loops. -/
structure LoopsAdvance (size bound : ℕ) : Prop where
  /-- `InitTensor` over the keys, a `size_t` -/
  keys : Advances id (fun len => len) size bound
  /-- `InitTensor` over the pushes, an `int` -/
  pushes : Advances int32 toInt32 size bound
  /-- `PartitionTensor`, an `unsigned int` -/
  entries : Advances uint32 (fun len => uint32 len) size bound

theorem nextLen_pos (hbound : 0 < bound) {accumulated : ℕ} (hlt : accumulated < size) :
    0 < nextLen size bound accumulated := by
  unfold nextLen
  split <;> omega

theorem nextLen_le (size bound accumulated : ℕ) : nextLen size bound accumulated ≤ min bound size := by
  unfold nextLen
  split <;> omega

theorem nextLen_zero (size bound : ℕ) : nextLen size bound 0 = min bound size := by
  unfold nextLen
  split <;> omega

/-- A loop advances when all lengths fit their type. -/
theorem advances_of_fits {stored : ℕ → ℕ} {amount : ℕ → ℤ} (hbound : 0 < bound)
    (hsize : size < 2 ^ 64) (hstored : ∀ n ≤ min bound size, stored n = n)
    (hamount : ∀ n ≤ min bound size, amount n = n) : Advances stored amount size bound where
  advance accumulated _ hlt := by
    rw [hamount _ (nextLen_le size bound accumulated)]
    exact Int.natCast_pos.mpr (nextLen_pos hbound hlt)
  ends := ⟨_, cuts_eq stored hbound hsize hstored⟩

theorem toInt32_neg {n : ℕ} (h : 2 ^ 31 ≤ n) (h' : n < 2 ^ 32) : toInt32 n < 0 := by
  unfold toInt32
  rw [BitVec.toInt_eq_toNat_bmod, BitVec.toNat_ofNat, Int.bmod_def]
  omega

/-- **The loops advance** for a positive bound if no cut is too long for an `int`. -/
theorem loopsAdvance_iff (hsize : 0 < size) (hsize' : size < 2 ^ 64) (hbound : bound < 2 ^ 32) :
    LoopsAdvance size bound ↔ 0 < bound ∧ min bound size < 2 ^ 31 := by
  constructor
  · intro h
    have hpos := h.keys.advance 0 .start hsize
    have hfit := h.pushes.advance 0 .start hsize
    rw [nextLen_zero] at hpos hfit
    refine ⟨by omega, ?_⟩
    by_contra hlong
    exact absurd (toInt32_neg (Nat.le_of_not_lt hlong) (by omega)) (by omega)
  · rintro ⟨hpos, hfit⟩
    refine ⟨advances_of_fits hpos hsize' (fun _ _ => rfl) fun _ _ => rfl,
      advances_of_fits hpos hsize' (fun n hn => int32_of_lt (by omega)) fun n hn =>
        toInt32_of_lt (by omega),
      advances_of_fits hpos hsize' (fun n hn => uint32_of_le hbound hn) fun n hn => ?_⟩
    rw [uint32_of_le hbound hn]

/-! ### The bound -/

/-- The least multiple of `y` from `x` on is at most `n` if `x` is at most the greatest one. -/
theorem ceil_mul_le_iff {x y n : ℕ} (hy : 0 < y) : (x + y - 1) / y * y ≤ n ↔ x ≤ n / y * y := by
  rw [← Nat.le_div_iff_mul_le hy, Nat.div_le_iff_le_mul_add_pred hy, Nat.mul_comm y]
  omega

theorem le_ceil_mul {x y : ℕ} (hy : 0 < y) : x ≤ (x + y - 1) / y * y := by
  by_contra hlt
  have h := (ceil_mul_le_iff hy).mp (Nat.le_refl ((x + y - 1) / y * y))
  rw [Nat.mul_div_cancel _ hy] at h
  exact hlt h

theorem ceil_mul_lt {x y : ℕ} (hy : 0 < y) : (x + y - 1) / y * y < x + y :=
  Nat.lt_of_le_of_lt (Nat.div_mul_le_self _ y) (by omega)

/-- The bound is the least multiple of a whole number of pages, as a `uint32_t`. -/
theorem initPartitionBytes_eq {v : ℤ} {localSize pagesize : ℕ} (hy : 0 < localSize * pagesize)
    (hy' : localSize * pagesize < 2 ^ 31) : initPartitionBytes (some v) localSize pagesize =
      uint32 (((v % 2 ^ 32).toNat + localSize * pagesize - 1) / (localSize * pagesize) *
        (localSize * pagesize)) := by
  have hx : (v % 2 ^ 32).toNat < 2 ^ 32 := by omega
  have hlt := ceil_mul_lt hy (x := (v % 2 ^ 32).toNat)
  have hsum : uint64 ((v % 2 ^ 32).toNat + (localSize * pagesize - 1)) =
      (v % 2 ^ 32).toNat + localSize * pagesize - 1 := by
    unfold uint64
    omega
  have hproduct : uint64 (((v % 2 ^ 32).toNat + localSize * pagesize - 1) / (localSize * pagesize) *
      (localSize * pagesize)) =
        ((v % 2 ^ 32).toNat + localSize * pagesize - 1) / (localSize * pagesize) *
          (localSize * pagesize) :=
    Nat.mod_eq_of_lt (by omega)
  unfold initPartitionBytes roundUp divUp
  simp only [hsum, hproduct]

/-! ### When they advance -/

/-- What `BYTEPS_PARTITION_BYTES` may be, for pages of all local workers of `y` bytes. -/
def PartitionBytesFit (v : ℤ) (y size : ℕ) : Prop :=
  0 < v ∧ (size < 2 ^ 31 ∨ v ≤ ((2 ^ 31 - 1) / y * y : ℕ)) ∨
    v < 0 ∧ (-v < (2 ^ 32 % y : ℕ) ∨ size < 2 ^ 31 ∧ v + 2 ^ 32 ≤ ((2 ^ 32 - 1) / y * y : ℕ))

theorem partitionBytesFit_iff {v : ℤ} {y : ℕ} (hv : -2 ^ 31 ≤ v) (hv' : v < 2 ^ 31) (hy : 0 < y)
    (hy' : y < 2 ^ 31) : 0 < uint32 (((v % 2 ^ 32).toNat + y - 1) / y * y) ∧
      min (uint32 (((v % 2 ^ 32).toNat + y - 1) / y * y)) size < 2 ^ 31 ↔
        PartitionBytesFit v y size := by
  obtain ⟨x, hx⟩ : ∃ x, x = (v % 2 ^ 32).toNat := ⟨_, rfl⟩
  rw [← hx]
  have hle := le_ceil_mul hy (x := x)
  have hlt := ceil_mul_lt hy (x := x)
  have h₀ := ceil_mul_le_iff hy (x := x) (n := 0)
  have h₃₁ := ceil_mul_le_iff hy (x := x) (n := 2 ^ 31 - 1)
  have h₃₂ := ceil_mul_le_iff hy (x := x) (n := 2 ^ 32 - 1)
  have h₃₃ := ceil_mul_le_iff hy (x := x) (n := 2 ^ 32)
  have hmod : 2 ^ 32 / y * y + 2 ^ 32 % y = 2 ^ 32 := Nat.div_add_mod' _ _
  rw [Nat.zero_div, Nat.zero_mul] at h₀
  unfold PartitionBytesFit uint32
  generalize (x + y - 1) / y * y = r at *
  generalize (2 ^ 31 - 1) / y * y = q₃₁ at *
  generalize (2 ^ 32 - 1) / y * y = q₃₂ at *
  generalize 2 ^ 32 / y * y = q₃₃ at *
  generalize 2 ^ 32 % y = m at *
  rcases lt_trichotomy v 0 with hneg | rfl | hpos
  · -- rounded up, it is below, at or above `2 ^ 32`
    have hx' : (x : ℤ) = v + 2 ^ 32 := by omega
    constructor
    · omega
    · omega
  · omega
  · have hx' : (x : ℤ) = v := by omega
    constructor
    · omega
    · omega

/--
**All three loops advance and end exactly if the partition bytes fit.** Zero does not, nor does
what is rounded up to `2 ^ 32`, nor a bound that makes a cut too long for an `int`.

The three loops store lengths as a `size_t`, an `int` and an `unsigned int`, and a cut that is
too long stops the second.
-/
theorem loopsAdvance_iff_partitionBytesFit {v : ℤ} (hv : -2 ^ 31 ≤ v) (hv' : v < 2 ^ 31)
    {localSize pagesize : ℕ} (hlocal : 1 ≤ localSize) (hpage : 1 ≤ pagesize)
    (hproduct : localSize * pagesize < 2 ^ 31) (hsize : 0 < size) (hsize' : size < 2 ^ 64) :
    LoopsAdvance size (initPartitionBytes (some v) localSize pagesize) ↔
      PartitionBytesFit v (localSize * pagesize) size := by
  have hy : 0 < localSize * pagesize := Nat.mul_pos hlocal hpage
  have hbound : initPartitionBytes (some v) localSize pagesize < 2 ^ 32 := by
    rw [initPartitionBytes_eq hy hproduct]
    exact Nat.mod_lt _ (by norm_num)
  rw [loopsAdvance_iff hsize hsize' hbound, initPartitionBytes_eq hy hproduct]
  exact partitionBytesFit_iff hv hv' hy hproduct

/-- The default bytes, for eight workers. -/
theorem loopsAdvance_iff_partitionBytesFit_eight :
    LoopsAdvance 100000000 (initPartitionBytes (some 4096000) 8 4096) :=
  (loopsAdvance_iff_partitionBytesFit (by decide) (by decide) (by decide) (by decide) (by decide)
    (by decide) (by decide)).mpr (.inl ⟨by decide, .inl (by decide)⟩)

/-- For zero the loop over the keys stays at the first byte. -/
theorem zero_does_not_advance : ¬∀ (v : ℤ) (localSize pagesize size : ℕ), -2 ^ 31 ≤ v →
    v < 2 ^ 31 → 1 ≤ localSize → 1 ≤ pagesize → localSize * pagesize < 2 ^ 31 → 0 < size →
    size < 2 ^ 64 → LoopsAdvance size (initPartitionBytes (some v) localSize pagesize) := by
  intro h
  have hloops := h 0 1 4096 4 (by decide) (by decide) (by decide) (by decide) (by decide) (by decide)
    (by decide)
  exact absurd (hloops.keys.advance 0 .start (by decide)) (by decide)

end DeepInc.Worker
