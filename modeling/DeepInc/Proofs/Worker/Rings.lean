/-
The devices of a machine are a grid.

A machine has as many devices as local ranks, and its PCIe switches have equally many of them.
The devices of a switch are a row, and reduce among themselves by NCCL.  The devices with the
same place on every switch are a column, and reduce on the CPU.  A row and a column meet in one
device.

How many devices a switch has comes from the environment.  A switch size that is too large,
negative or does not divide the devices leaves one row of all of them; zero is the one value for
which nothing is said, since the devices are divided by it.

Roots are the last of their groups.  The root of a column is in the last row, and the root of a
row has the highest rank of it.  These are what the later stages count on: the one adds up what
the switches have, and the other is the device that tells the others what to call.
-/
import DeepInc.Lib.Grid
import DeepInc.Proofs.Worker.Chunks
import DeepInc.Worker.Rings

namespace DeepInc.Worker

variable {L : ℕ}

/-! ### `InitGlobalEnv`

The size is converted from an `int` to an unsigned number, compared with the number of devices,
and has to divide it.  What comes out satisfies `Covers`, and that is all the rest of the file
uses.
-/

namespace NcclManager

/-- The switch sizes `atoi` can return, but zero; the variable need not be set. -/
def NonzeroSwitchSize (env : Option ℤ) : Prop := ∀ n ∈ env, n ≠ 0 ∧ -2 ^ 31 ≤ n ∧ n < 2 ^ 31

theorem switchSize_ne_zero {env : Option ℤ} (henv : NonzeroSwitchSize env) : switchSize env ≠ 0 := by
  cases env with
  | none => decide
  | some n =>
      obtain ⟨hn, hlow, hhigh⟩ := henv n rfl
      show (n % 2 ^ 64).toNat ≠ 0
      omega

/-- Every device is on a switch of as many devices as the others. -/
structure Covers (m : NcclManager) (L : ℕ) : Prop where
  size_pos : 1 ≤ m.ncclPcieSize
  num_pos : 1 ≤ m.ncclPcieNum
  size_mul_num : m.ncclPcieSize * m.ncclPcieNum = L

theorem covers_of_initGlobalEnv {env : Option ℤ} (henv : NonzeroSwitchSize env) (hL : 1 ≤ L) :
    ∃ m, initGlobalEnv env L = some m ∧ m.Covers L := by
  have hsize := switchSize_ne_zero henv
  unfold initGlobalEnv
  simp only
  rw [if_neg hsize]
  split
  · exact ⟨_, rfl, hL, Nat.one_pos, Nat.mul_one L⟩
  · rename_i hnum
    split
    · exact ⟨_, rfl, hL, Nat.one_pos, Nat.mul_one L⟩
    · rename_i hrest
      refine ⟨_, rfl, Nat.pos_of_ne_zero hsize, Nat.pos_of_ne_zero hnum, ?_⟩
      exact Nat.mul_div_cancel' (Nat.dvd_of_mod_eq_zero (not_not.mp hrest))

end NcclManager

/-! ### The peers -/

theorem NcclManager.mem_peers {m : NcclManager} (hsize : 1 ≤ m.ncclPcieSize) {k r : ℕ} :
    k ∈ m.peers r ↔ k / m.ncclPcieSize = r / m.ncclPcieSize := by
  unfold NcclManager.peers
  rw [List.mem_range'_1, Nat.div_eq_iff hsize]
  have := Nat.sub_add_cancel hsize
  omega

theorem mem_reducerPeers {m : NcclManager} (hsize : 1 ≤ m.ncclPcieSize) {roots : Option (List ℤ)}
    {r k : ℕ} : k ∈ (m.device L roots r).reducerPeers ↔
      k < L ∧ k % m.ncclPcieSize = r % m.ncclPcieSize :=
  Device.mem_reducerPeers hsize

/-! ### Communicators -/

/-- The last of the members is their root. -/
theorem CommSocket.new_eq (comm : CommSocket) {members : List ℕ} {r : ℕ} (hr : r ∈ members) :
    ∃ c, comm.new members = some c ∧ c.members = members ∧ members.getLast? = some c.root := by
  have hlength : 0 < members.length := List.length_pos_of_mem hr
  unfold CommSocket.new
  simp only [if_pos hlength]
  rw [List.getLast?_eq_some_getLast (List.ne_nil_of_mem hr)]
  exact ⟨_, rfl, rfl, rfl⟩

/-! ### The grid

Rows and columns are the classes of a quotient and of a remainder.  `Lib/Grid.lean` has what
there is to say of these.
-/

/-- The sets of peers, one for each of `L` ranks, part the ranks into `n` groups. -/
structure PartsInto (L n : ℕ) (peers : ℕ → List ℕ) : Prop where
  mem_self : ∀ r < L, r ∈ peers r
  parts : ∃ P : Finpartition (Finset.range L),
    P.parts = (Finset.range L).image (fun r => (peers r).toFinset) ∧ P.parts.card = n

/-- Sets of peers with the same label do, when there are as many labels. -/
theorem partsInto_of_label {n : ℕ} {peers : ℕ → List ℕ} (label : ℕ → ℕ)
    (hpeers : ∀ r < L, ∀ k, k ∈ peers r ↔ k < L ∧ label r = label k)
    (hlabels : (Finset.range L).image label = Finset.range n) : PartsInto L n peers where
  mem_self r hr := (hpeers r hr r).mpr ⟨hr, rfl⟩
  parts := by
    refine ⟨Grid.parts (Finset.range L) label, ?_, ?_⟩
    · rw [Grid.parts_eq]
      refine Finset.image_congr fun r hr => Finset.ext fun k => ?_
      have hr : r < L := Finset.mem_range.mp hr
      unfold Grid.part
      rw [Finset.mem_filter, Finset.mem_range, List.mem_toFinset, hpeers r hr k]
    · rw [Grid.card_parts, hlabels, Finset.card_range]

/-- The devices of `L` ranks, in the switches and columns of `m`. -/
structure IsGrid (m : NcclManager) (L : ℕ) (roots : Option (List ℤ)) (comm : CommSocket) :
    Prop where
  switches : PartsInto L m.ncclPcieNum m.peers
  columns : PartsInto L m.ncclPcieSize fun r => (m.device L roots r).reducerPeers
  /-- a switch and a column have one device in common -/
  meet : ∀ r < L, ∀ r' < L, ∃! k, k ∈ m.peers r ∧ k ∈ (m.device L roots r').reducerPeers
  /-- the root of a column is on the last switch -/
  column_root : ∀ r < L, ∃ c, (m.device L roots r).reducerComm comm = some c ∧
    c.members = (m.device L roots r).reducerPeers ∧ c.root ∈ c.members ∧ c.root ∈ m.peers (L - 1)
  /-- the ranks on a switch -/
  ranks : ∀ r < L, Set.BijOn (fun k => (m.device L roots k).getRank) {k | k ∈ m.peers r}
    (Set.Iio m.ncclPcieSize)
  /-- the devices of a switch agree on their root, whose rank is that of the root of a reduction -/
  signal_root : ∀ r < L, ∃ c, c.members = m.peers r ∧ c.root ∈ c.members ∧
    ∀ k ∈ m.peers r, m.signalComm comm k = some c ∧
      (NcclManager.isSignalRoot c k = true ↔
        (m.device L roots k).getRank = (m.device L roots k).getRoot)

section Grid

variable {m : NcclManager} {roots : Option (List ℤ)}

theorem NcclManager.Covers.div_lt (h : m.Covers L) {k : ℕ} :
    k / m.ncclPcieSize < m.ncclPcieNum ↔ k < L := by
  rw [Nat.div_lt_iff_lt_mul h.size_pos, Nat.mul_comm, h.size_mul_num]

theorem NcclManager.Covers.mem_peers_iff (h : m.Covers L) {r k : ℕ} (hr : r < L) :
    k ∈ m.peers r ↔ k < L ∧ r / m.ncclPcieSize = k / m.ncclPcieSize := by
  rw [NcclManager.mem_peers h.size_pos]
  constructor
  · intro hk
    exact ⟨h.div_lt.mp (hk ▸ h.div_lt.mpr hr), hk.symm⟩
  · exact fun hk => hk.2.symm

theorem NcclManager.Covers.switches (h : m.Covers L) : PartsInto L m.ncclPcieNum m.peers := by
  refine partsInto_of_label (· / m.ncclPcieSize) (fun r hr k => h.mem_peers_iff hr) ?_
  rw [← h.size_mul_num]
  exact Grid.image_div h.size_pos

theorem NcclManager.Covers.columns (h : m.Covers L) :
    PartsInto L m.ncclPcieSize fun r => (m.device L roots r).reducerPeers := by
  refine partsInto_of_label (· % m.ncclPcieSize) (fun r _ k => ?_) ?_
  · rw [mem_reducerPeers h.size_pos, eq_comm]
  · rw [← h.size_mul_num]
    exact Grid.image_mod h.size_pos h.num_pos

theorem NcclManager.Covers.meet (h : m.Covers L) {r r' : ℕ} (hr : r < L) :
    ∃! k, k ∈ m.peers r ∧ k ∈ (m.device L roots r').reducerPeers := by
  obtain ⟨k, ⟨hk, hrow, hcolumn⟩, hunique⟩ :=
    Grid.existsUnique_cell (h.div_lt.mpr hr) (Nat.mod_lt r' h.size_pos)
  rw [h.size_mul_num] at hk hunique
  refine ⟨k, ⟨(h.mem_peers_iff hr).mpr ⟨hk, hrow.symm⟩, (mem_reducerPeers h.size_pos).mpr ⟨hk, hcolumn⟩⟩,
    fun k' hk' => hunique k' ?_⟩
  obtain ⟨hswitch, hcolumn'⟩ := hk'
  obtain ⟨hlt, hrow'⟩ := (h.mem_peers_iff hr).mp hswitch
  exact ⟨hlt, hrow'.symm, ((mem_reducerPeers h.size_pos).mp hcolumn').2⟩

/-- Behind the root of a column there is no further switch. -/
theorem NcclManager.Covers.column_root (h : m.Covers L) (comm : CommSocket) {r : ℕ} (hr : r < L) :
    ∃ c, (m.device L roots r).reducerComm comm = some c ∧
      c.members = (m.device L roots r).reducerPeers ∧ c.root ∈ c.members ∧
      c.root ∈ m.peers (L - 1) := by
  have hsize := h.size_pos
  have hself : r ∈ (m.device L roots r).reducerPeers := (mem_reducerPeers hsize).mpr ⟨hr, rfl⟩
  obtain ⟨c, hc, hmembers, hroot⟩ := CommSocket.new_eq comm hself
  obtain ⟨hmem, hle⟩ := (getLast?_eq_some_iff_of_pairwise (Device.pairwise_reducerPeers hsize)).mp hroot
  obtain ⟨hlt, hcolumn⟩ := (mem_reducerPeers hsize).mp hmem
  refine ⟨c, hc, hmembers, hmembers ▸ hmem, (h.mem_peers_iff (by omega)).mpr ⟨hlt, ?_⟩⟩
  have hlast : L ≤ c.root + m.ncclPcieSize := by
    by_contra hnext
    have := hle (c.root + m.ncclPcieSize) ((mem_reducerPeers hsize).mpr
      ⟨by omega, by rw [Nat.add_mod_right, hcolumn]⟩)
    omega
  have hnext : ¬(c.root + m.ncclPcieSize) / m.ncclPcieSize < m.ncclPcieNum := by
    rw [h.div_lt]
    omega
  rw [Nat.add_div_right _ hsize] at hnext
  have hroot_lt := h.div_lt.mpr hlt
  have hlast_lt := h.div_lt.mpr (show L - 1 < L by omega)
  have hmono := Nat.div_le_div_right (c := m.ncclPcieSize) (show c.root ≤ L - 1 by omega)
  omega

theorem NcclManager.Covers.ranks (h : m.Covers L) (r : ℕ) :
    Set.BijOn (fun k => (m.device L roots k).getRank) {k | k ∈ m.peers r}
      (Set.Iio m.ncclPcieSize) := by
  have hrow : {k | k ∈ m.peers r} = {k | k / m.ncclPcieSize = r / m.ncclPcieSize} :=
    Set.ext fun k => NcclManager.mem_peers h.size_pos
  rw [hrow]
  exact Grid.bijOn_mod h.size_pos _

/-- The last device of a switch has the highest rank. -/
theorem mod_of_getLast?_peers (hsize : 1 ≤ m.ncclPcieSize) {r k : ℕ}
    (hk : (m.peers r).getLast? = some k) :
    k ∈ m.peers r ∧ k % m.ncclPcieSize = m.ncclPcieSize - 1 := by
  obtain ⟨hmem, hle⟩ := (getLast?_eq_some_iff_of_pairwise List.pairwise_lt_range').mp hk
  refine ⟨hmem, ?_⟩
  have hrow := (NcclManager.mem_peers hsize).mp hmem
  have hlt : m.ncclPcieSize - 1 < m.ncclPcieSize := by omega
  have hhighest := hle (m.ncclPcieSize * (r / m.ncclPcieSize) + (m.ncclPcieSize - 1))
    ((NcclManager.mem_peers hsize).mpr (Grid.div_cell hlt _))
  have hsplit := Nat.div_add_mod k m.ncclPcieSize
  have hmod := Nat.mod_lt k hsize
  rw [hrow] at hsplit
  omega

theorem NcclManager.Covers.signal_root (h : m.Covers L) (comm : CommSocket) (r : ℕ) :
    ∃ c, c.members = m.peers r ∧ c.root ∈ c.members ∧
      ∀ k ∈ m.peers r, m.signalComm comm k = some c ∧
        (NcclManager.isSignalRoot c k = true ↔
          (m.device L roots k).getRank = (m.device L roots k).getRoot) := by
  have hsize := h.size_pos
  have hself : r ∈ m.peers r := (NcclManager.mem_peers hsize).mpr rfl
  obtain ⟨c, hc, hmembers, hroot⟩ := CommSocket.new_eq comm hself
  obtain ⟨hmem, hrank⟩ := mod_of_getLast?_peers hsize hroot
  refine ⟨c, hmembers, hmembers ▸ hmem, fun k hk => ⟨?_, ?_⟩⟩
  · -- the devices of a switch have the same peers
    have hsame : m.peers k = m.peers r := by
      unfold NcclManager.peers
      rw [(NcclManager.mem_peers hsize).mp hk]
    unfold NcclManager.signalComm
    rw [hsame, hc]
  · unfold NcclManager.isSignalRoot
    rw [decide_eq_true_iff]
    constructor
    · rintro rfl
      exact hrank
    · intro hk'
      have hmod : k % m.ncclPcieSize = m.ncclPcieSize - 1 := hk'
      have hdiv := (NcclManager.mem_peers hsize).mp hk
      have hdiv' := (NcclManager.mem_peers hsize).mp hmem
      rw [← Nat.div_add_mod c.root m.ncclPcieSize, hdiv', hrank, ← hdiv, ← hmod, Nat.div_add_mod]

end Grid

/--
**The devices of a machine are a grid**, whatever the switch size is set to but zero: the
switches and the columns part them, and a switch and a column have one of them in common.

The roots of the switches and of the columns are what they are taken for elsewhere: the last of
their groups.
-/
theorem isGrid_of_initGlobalEnv {env : Option ℤ} (henv : NcclManager.NonzeroSwitchSize env)
    (hL : 1 ≤ L) :
    ∃ m, NcclManager.initGlobalEnv env L = some m ∧ 1 ≤ m.ncclPcieSize ∧
      m.ncclPcieSize * m.ncclPcieNum = L ∧
      ∀ (roots : Option (List ℤ)) (comm : CommSocket), IsGrid m L roots comm := by
  obtain ⟨m, hm, h⟩ := NcclManager.covers_of_initGlobalEnv henv hL
  refine ⟨m, hm, h.size_pos, h.size_mul_num, fun roots comm => ?_⟩
  exact {
    switches := h.switches
    columns := h.columns
    meet := fun r hr r' _ => h.meet hr
    column_root := fun r hr => h.column_root comm hr
    ranks := fun r _ => h.ranks r
    signal_root := fun r _ => h.signal_root comm r }

/-- Eight devices on switches of four. -/
theorem isGrid_of_initGlobalEnv_four :
    ∃ m, NcclManager.initGlobalEnv (some 4) 8 = some m ∧ 1 ≤ m.ncclPcieSize ∧
      m.ncclPcieSize * m.ncclPcieNum = 8 ∧
      ∀ (roots : Option (List ℤ)) (comm : CommSocket), IsGrid m 8 roots comm :=
  isGrid_of_initGlobalEnv (fun n hn => by cases hn; decide) (by decide)

/-- Six devices on switches of four: the switch size does not divide them. -/
example : NcclManager.initGlobalEnv (some 4) 6 = some { ncclPcieSize := 6, ncclPcieNum := 1 } := by
  decide

end DeepInc.Worker
