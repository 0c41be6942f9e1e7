/-
Where the keys of a worker go, and which lengths go with them.

The table of a worker has an entry for every key it has encoded.  An entry depends on nothing
but what happens to its key, so that a run on the table comes apart into one run for every key,
and what is said of a key may be proved as if it were the only one.

The server of a key is chosen when its entry is made and does not change afterwards.  Whether
all workers choose the same one is a question of its own: the hash is one of characters whose
string is gone, and every worker reads its own.  Where they agree, the key goes to one place,
and the server takes it back to the key as long as the sum of the range and the key does not
wrap around.

The length of an entry is only written again when it differs from the size, and the answer of
a pull changes the one without the other.  So an entry is in one of two conditions.  After it
was encoded with another length than before, length and size agree, and nothing can go wrong
next; after a pull, the size is that of the partition and the length is that of the answer, and
a push of the whole partition does not notice.
-/
import DeepInc.Proofs.Worker.Context
import DeepInc.Worker.KeyEncoding
import Mathlib.Data.List.Chain

namespace DeepInc.Worker

open Outcome

variable {env : KeyEnv}

/-! ### One key among others

`applyTo` is what an operation does to the entry of its key, and `runKey` a run of such
operations.  The table is only the place where the entries are kept. -/

/-- The entry after an operation. -/
def KeyOp.applyTo (env : KeyEnv) (key : ℕ) (pskv : PSKV) : KeyOp → Except Fault PSKV
  | encode len => pskv.encoded env key len
  | pulled len => .ok (pskv.pulled len)

/-- An operation on a key only concerns its entry. -/
theorem KeyOp.apply_eq (op : KeyOp) (table : KeyTable) (key : ℕ) : op.apply env table key =
    (op.applyTo env key (table key)).map fun pskv => (pskv, Function.update table key pskv) := by
  cases op with
  | encode len =>
      show encodeDefaultKey env table key len = ((table key).encoded env key len).map _
      unfold encodeDefaultKey
      cases (table key).encoded env key len <;> rfl
  | pulled len => rfl

/-- The first step of a run on the table, and the rest. -/
theorem runKeyOps_cons_eq_ok {table : KeyTable} {o : ℕ × KeyOp} {ops : List (ℕ × KeyOp)}
    {pskvs : List PSKV} (h : runKeyOps env table (o :: ops) = .ok pskvs) : ∃ pskv rest,
      o.2.applyTo env o.1 (table o.1) = .ok pskv ∧
      runKeyOps env (Function.update table o.1 pskv) ops = .ok rest ∧ pskvs = pskv :: rest := by
  obtain ⟨⟨pskv, table'⟩, happly, h⟩ := bind_eq_ok h
  obtain ⟨rest, hrest, h⟩ := bind_eq_ok h
  cases h
  rw [KeyOp.apply_eq] at happly
  obtain ⟨pskv', hto, heq⟩ := map_eq_ok happly
  cases heq
  exact ⟨pskv, rest, hto, hrest, rfl⟩

/-- What happens to one entry, one thing after another. -/
def runKey (env : KeyEnv) (key : ℕ) : PSKV → List KeyOp → Except Fault (List PSKV)
  | _, [] => .ok []
  | pskv, op :: ops => do
    let pskv ← op.applyTo env key pskv
    let pskvs ← runKey env key pskv ops
    .ok (pskv :: pskvs)

/-- The part of a run that is about a key. -/
def opsOf (key : ℕ) (ops : List (ℕ × KeyOp)) : List KeyOp :=
  (ops.filter fun o => o.1 = key).map (·.2)

/-- And the entries it leaves. -/
def entriesOf (key : ℕ) (ops : List (ℕ × KeyOp)) (pskvs : List PSKV) : List PSKV :=
  ((ops.zip pskvs).filter fun o => o.1.1 = key).map (·.2)

/-- **An entry is what happened to its key.** -/
theorem runKey_of_runKeyOps {table : KeyTable} {ops : List (ℕ × KeyOp)} {pskvs : List PSKV}
    (h : runKeyOps env table ops = .ok pskvs) (key : ℕ) :
    runKey env key (table key) (opsOf key ops) = .ok (entriesOf key ops pskvs) := by
  induction ops generalizing table pskvs with
  | nil =>
      cases h
      rfl
  | cons o ops ih =>
      obtain ⟨pskv, rest, hpskv, hrest, rfl⟩ := runKeyOps_cons_eq_ok h
      have htail := ih hrest
      by_cases hkey : o.1 = key
      · subst hkey
        rw [Function.update_self] at htail
        unfold opsOf entriesOf at htail ⊢
        rw [List.filter_cons_of_pos (by simp), List.zip_cons_cons, List.filter_cons_of_pos (by simp),
          List.map_cons, List.map_cons, runKey, hpskv]
        simp only [bind, Except.bind]
        rw [htail]
      · rw [Function.update_of_ne (Ne.symm hkey)] at htail
        unfold opsOf entriesOf at htail ⊢
        rw [List.filter_cons_of_neg (by simpa using hkey), List.zip_cons_cons,
          List.filter_cons_of_neg (by simpa using hkey)]
        exact htail

/-! ### Where a key goes

An entry is made once, with the server the hash picks at that time.  Later operations on the key
look at the length only, so that the place is kept.
-/

/-- The entry is of the key at the server its hash picks. -/
structure Placed (env : KeyEnv) (key server : ℕ) (kr : KeyRange) (pskv : PSKV) : Prop where
  picked : serverOf env key = .ok server
  range : env.keyRanges[server]? = some kr
  keys : pskv.keys = [uint64 (kr.rangeBegin + key)]
  lt : uint64 (kr.rangeBegin + key) < kr.rangeEnd

theorem serverOf_lt {key server : ℕ} (hpos : 0 < env.keyRanges.length)
    (h : serverOf env key = .ok server) : server < env.keyRanges.length := by
  have hmod : ∀ n, (.ok (n % env.keyRanges.length) : Except Fault ℕ) = .ok server →
      server < env.keyRanges.length := fun n hn => by
    cases hn
    exact Nat.mod_lt n hpos
  unfold serverOf at h
  simp only at h
  split at h
  · exact hmod _ h
  · split at h
    · exact hmod _ h
    · split at h
      · exact hmod _ h
      · split at h
        · exact hmod _ h
        · split at h
          · obtain ⟨_, _, h⟩ := bind_eq_ok h
            obtain ⟨s, _, h⟩ := bind_eq_ok h
            obtain ⟨_, hcheck, h⟩ := bind_eq_ok h
            cases h
            exact of_decide_eq_true (check_eq_ok hcheck)
          · cases h

theorem placed_of_newPSKV {key len : ℕ} {pskv : PSKV} (h : newPSKV env key len = .ok pskv) :
    ∃ server kr, Placed env key server kr pskv ∧ pskv.lens = [toInt32 len] ∧
      pskv.size = toInt32 len := by
  obtain ⟨_, hpos, h⟩ := bind_eq_ok h
  obtain ⟨server, hserver, h⟩ := bind_eq_ok h
  obtain ⟨_, hlt, h⟩ := bind_eq_ok h
  cases h
  have hin := serverOf_lt (of_decide_eq_true (check_eq_ok hpos)) hserver
  have hget : env.keyRanges.getD server ⟨0, 0⟩ = env.keyRanges[server] := by
    rw [List.getD_eq_getElem?_getD, List.getElem?_eq_getElem hin, Option.getD_some]
  rw [hget] at hlt ⊢
  exact ⟨server, _, ⟨hserver, List.getElem?_eq_getElem hin, rfl,
    of_decide_eq_true (check_eq_ok hlt)⟩, rfl, rfl⟩

@[simp] theorem keys_resize (pskv : PSKV) (len : ℕ) : (pskv.resize len).keys = pskv.keys := by
  unfold PSKV.resize
  split <;> rfl

theorem Placed.of_keys {key server : ℕ} {kr : KeyRange} {p q : PSKV}
    (h : Placed env key server kr p)
    (hkeys : q.keys = p.keys) : Placed env key server kr q :=
  ⟨h.picked, h.range, hkeys.trans h.keys, h.lt⟩

/-- What is in the table is in its place. -/
def Placing (env : KeyEnv) (key : ℕ) (pskv : PSKV) : Prop :=
  pskv.keys ≠ [] → ∃ server kr, Placed env key server kr pskv

/-- What one operation preserves: a key that is encoded is in its place then. -/
theorem KeyOp.placing {op : KeyOp} {key : ℕ} {pskv pskv' : PSKV} (hpskv : Placing env key pskv)
    (h : op.applyTo env key pskv = .ok pskv') : Placing env key pskv' ∧
      ∀ len, op = .encode len → ∃ server kr, Placed env key server kr pskv' := by
  cases op with
  | encode len =>
      have hplaced : ∃ server kr, Placed env key server kr pskv' := by
        have h' : pskv.encoded env key len = .ok pskv' := h
        unfold PSKV.encoded at h'
        by_cases hkeys : pskv.keys ≠ []
        · rw [if_pos hkeys] at h'
          cases h'
          obtain ⟨server, kr, hp⟩ := hpskv hkeys
          exact ⟨server, kr, hp.of_keys (keys_resize pskv len)⟩
        · rw [if_neg hkeys] at h'
          obtain ⟨server, kr, hp, -⟩ := placed_of_newPSKV h'
          exact ⟨server, kr, hp⟩
      exact ⟨fun _ => hplaced, fun _ _ => hplaced⟩
  | pulled len =>
      cases h
      refine ⟨fun hkeys => ?_, fun _ hop => by cases hop⟩
      obtain ⟨server, kr, hp⟩ := hpskv hkeys
      exact ⟨server, kr, hp.of_keys rfl⟩

/-- A key is encoded to an entry in a run. -/
def EncodedTo (ops : List (ℕ × KeyOp)) (pskvs : List PSKV) (key : ℕ) (pskv : PSKV) : Prop :=
  ∃ len, ((key, KeyOp.encode len), pskv) ∈ ops.zip pskvs

/-- **A key that is encoded is in its place**, whatever was encoded before. -/
theorem placed_of_encodedTo {table : KeyTable} (htable : ∀ key, Placing env key (table key))
    {ops : List (ℕ × KeyOp)} {pskvs : List PSKV} (h : runKeyOps env table ops = .ok pskvs) {key : ℕ}
    {pskv : PSKV} (hencoded : EncodedTo ops pskvs key pskv) :
    ∃ server kr, Placed env key server kr pskv := by
  obtain ⟨len, hmem⟩ := hencoded
  induction ops generalizing table pskvs with
  | nil => cases hmem
  | cons o ops ih =>
      obtain ⟨p, rest, hp, hrest, rfl⟩ := runKeyOps_cons_eq_ok h
      obtain ⟨hplacing, hplaced⟩ := KeyOp.placing (htable o.1) hp
      rw [List.zip_cons_cons] at hmem
      rcases List.mem_cons.mp hmem with heq | hmem
      · obtain ⟨rfl, rfl⟩ := Prod.mk.inj heq
        exact hplaced len rfl
      · refine ih (fun k => ?_) hrest hmem
        by_cases hk : k = o.1
        · rw [hk, Function.update_self]
          exact hplacing
        · rw [Function.update_of_ne hk]
          exact htable k

/-- Every operation of a run leaves an entry. -/
theorem exists_encodedTo {table : KeyTable} {ops : List (ℕ × KeyOp)} {pskvs : List PSKV}
    (h : runKeyOps env table ops = .ok pskvs) {key len : ℕ} (hmem : (key, KeyOp.encode len) ∈ ops) :
    ∃ pskv, EncodedTo ops pskvs key pskv := by
  induction ops generalizing table pskvs with
  | nil => cases hmem
  | cons o ops ih =>
      obtain ⟨p, rest, hp, hrest, rfl⟩ := runKeyOps_cons_eq_ok h
      rcases List.mem_cons.mp hmem with heq | hmem
      · exact ⟨p, len, by rw [heq]; exact List.mem_cons_self⟩
      · obtain ⟨pskv, len', hpskv⟩ := ih hrest hmem
        exact ⟨pskv, len', List.mem_cons_of_mem _ hpskv⟩

/-! ### At the server -/

section Server

variable {krs : List KeyRange}

/-- A server takes a key of its range back, and gives it again. -/
theorem decodeKey_of_owns {rank psKey key : ℕ} {kr : KeyRange} (hkr : krs[rank]? = some kr)
    (hle : kr.rangeBegin ≤ psKey) (hlt : psKey < 2 ^ 64) :
    (decodeKey krs rank psKey = key ↔ psKey = kr.rangeBegin + key) ∧
      encodeKey krs rank (decodeKey krs rank psKey) = psKey := by
  have hget : krs.getD rank ⟨0, 0⟩ = kr := by rw [List.getD_eq_getElem?_getD, hkr, Option.getD_some]
  unfold encodeKey decodeKey
  simp only [hget]
  unfold toUInt64 uint64
  omega

end Server

/-- Every worker sends a key to one place, no two keys go to one, and it is taken back there. -/
structure RoutesRight {ι : Type} (krs : List KeyRange) (ops : ι → List (ℕ × KeyOp))
    (pskvs : ι → List PSKV) : Prop where
  same : ∀ a b key p q, EncodedTo (ops a) (pskvs a) key p → EncodedTo (ops b) (pskvs b) key q →
    p.keys = q.keys
  distinct : ∀ a b key key' p q, key ≠ key' → EncodedTo (ops a) (pskvs a) key p →
    EncodedTo (ops b) (pskvs b) key' q → p.keys ≠ q.keys
  received : ∀ a key p, EncodedTo (ops a) (pskvs a) key p → ∃ psKey, p.keys = [psKey] ∧
    (∃ rank, Owns krs rank psKey) ∧
    ∀ rank, Owns krs rank psKey → decodeKey krs rank psKey = key ∧
      encodeKey krs rank (decodeKey krs rank psKey) = psKey

/-- A sum that does not wrap around is in the range of its server. -/
theorem Placed.owns {key server : ℕ} {kr : KeyRange} {p : PSKV} (h : Placed env key server kr p)
    (hwrap : kr.rangeBegin + key < 2 ^ 64) :
    p.keys = [kr.rangeBegin + key] ∧ Owns env.keyRanges server (kr.rangeBegin + key) := by
  have heq : uint64 (kr.rangeBegin + key) = kr.rangeBegin + key := Nat.mod_eq_of_lt hwrap
  have hkeys := h.keys
  have hlt := h.lt
  rw [heq] at hkeys hlt
  exact ⟨hkeys, kr, h.range, Nat.le_add_right _ _, hlt⟩

section Routing

variable {ι : Type} {krs : List KeyRange} {envs : ι → KeyEnv} {ops : ι → List (ℕ × KeyOp)}
  {pskvs : ι → List PSKV}

/-- What a worker has encoded is in the place its own hash picks. -/
theorem placed_of_run (hrun : ∀ a, runKeyOps (envs a) (fun _ => {}) (ops a) = .ok (pskvs a)) {a : ι}
    {key : ℕ} {p : PSKV} (h : EncodedTo (ops a) (pskvs a) key p) :
    ∃ server kr, Placed (envs a) key server kr p :=
  placed_of_encodedTo (fun _ hkeys => absurd rfl hkeys) (hrun a) h

/-- Without a sum that wraps around it is, moreover, a key of that server. -/
theorem owns_of_run (hkrs : ∀ a, (envs a).keyRanges = krs)
    (hrun : ∀ a, runKeyOps (envs a) (fun _ => {}) (ops a) = .ok (pskvs a))
    (hwrap : ∀ a key len, (key, KeyOp.encode len) ∈ ops a → ∀ server kr,
      serverOf (envs a) key = .ok server → krs[server]? = some kr → kr.rangeBegin + key < 2 ^ 64)
    {a : ι} {key : ℕ} {p : PSKV} (h : EncodedTo (ops a) (pskvs a) key p) : ∃ server kr,
      serverOf (envs a) key = .ok server ∧ krs[server]? = some kr ∧
      kr.rangeBegin + key < 2 ^ 64 ∧ p.keys = [kr.rangeBegin + key] ∧
      Owns krs server (kr.rangeBegin + key) := by
  obtain ⟨server, kr, hplace⟩ := placed_of_run hrun h
  obtain ⟨len, hmem⟩ := h
  have hrange := hplace.range
  rw [hkrs] at hrange
  have hlt := hwrap a key len (List.of_mem_zip hmem).1 server kr hplace.picked hrange
  obtain ⟨hkeys, howns⟩ := hplace.owns hlt
  rw [hkrs] at howns
  exact ⟨server, kr, hplace.picked, hrange, hlt, hkeys, howns⟩

/-- A key that is taken back at its server did not wrap around. -/
theorem RoutesRight.lt (hkrs : ∀ a, (envs a).keyRanges = krs)
    (hranges : ∀ kr ∈ krs, kr.rangeBegin < 2 ^ 64)
    (hrun : ∀ a, runKeyOps (envs a) (fun _ => {}) (ops a) = .ok (pskvs a))
    (h : RoutesRight krs ops pskvs) {a : ι} {key len : ℕ} (hmem : (key, KeyOp.encode len) ∈ ops a)
    {server : ℕ} {kr : KeyRange} (hserver : serverOf (envs a) key = .ok server)
    (hkr : krs[server]? = some kr) : kr.rangeBegin + key < 2 ^ 64 := by
  obtain ⟨p, hp⟩ := exists_encodedTo (hrun a) hmem
  obtain ⟨server', kr', hplace⟩ := placed_of_run hrun hp
  obtain rfl : server' = server := Except.ok.inj (hplace.picked.symm.trans hserver)
  have hrange := hplace.range
  rw [hkrs] at hrange
  obtain rfl : kr' = kr := Option.some.inj (hrange.symm.trans hkr)
  obtain ⟨psKey, hkeys, ⟨rank, hrank⟩, hback⟩ := h.received a key p hp
  have hpsKey : psKey = uint64 (kr'.rangeBegin + key) := by
    have := hplace.keys
    rw [hkeys] at this
    exact (List.cons.inj this).1
  have hlt : psKey < 2 ^ 64 := by
    rw [hpsKey]
    exact Nat.mod_lt _ (by decide)
  obtain ⟨kr, hkr', hle, hend⟩ := hrank
  have hsum := (decodeKey_of_owns hkr' hle hlt).1.mp (hback rank ⟨kr, hkr', hle, hend⟩).1
  -- both ranges start at the same key
  have hb := hranges kr (List.mem_of_getElem? hkr')
  have hb' := hranges kr' (List.mem_of_getElem? hkr)
  unfold uint64 at hpsKey
  omega

end Routing

/--
**Keys are routed right as long as no sum of a range and a key wraps around**, and any two
workers that encode a key hash what they read of it to the same server.  The operations of every
worker may come in any order, and among them the ends of pulls.
-/
theorem routesRight_iff {ι : Type} {krs : List KeyRange}
    (hranges : ∀ kr ∈ krs, kr.rangeBegin < 2 ^ 64)
    (hdisjoint : ∀ rank rank' psKey, Owns krs rank psKey → Owns krs rank' psKey → rank = rank')
    (envs : ι → KeyEnv) (hkrs : ∀ a, (envs a).keyRanges = krs) (ops : ι → List (ℕ × KeyOp))
    (pskvs : ι → List PSKV)
    (hrun : ∀ a, runKeyOps (envs a) (fun _ => {}) (ops a) = .ok (pskvs a)) :
    RoutesRight krs ops pskvs ↔
      (∀ a key len, (key, KeyOp.encode len) ∈ ops a → ∀ server kr,
        serverOf (envs a) key = .ok server → krs[server]? = some kr →
          kr.rangeBegin + key < 2 ^ 64) ∧
      ∀ a b key len len', (key, KeyOp.encode len) ∈ ops a → (key, KeyOp.encode len') ∈ ops b →
        serverOf (envs a) key = serverOf (envs b) key := by
  constructor
  · intro h
    have hwrap : ∀ a key len, (key, KeyOp.encode len) ∈ ops a → ∀ server kr,
        serverOf (envs a) key = .ok server → krs[server]? = some kr →
          kr.rangeBegin + key < 2 ^ 64 :=
      fun a key len hmem server kr => h.lt hkrs hranges hrun hmem
    refine ⟨hwrap, fun a b key len len' ha hb => ?_⟩
    obtain ⟨p, hp⟩ := exists_encodedTo (hrun a) ha
    obtain ⟨q, hq⟩ := exists_encodedTo (hrun b) hb
    obtain ⟨server, kr, hs, hkr, -, hkeys, hown⟩ := owns_of_run hkrs hrun hwrap hp
    obtain ⟨server', kr', hs', hkr', -, hkeys', hown'⟩ := owns_of_run hkrs hrun hwrap hq
    have hsame := h.same a b key p q hp hq
    rw [hkeys, hkeys'] at hsame
    rw [(List.cons.inj hsame).1] at hown
    rw [hs, hs', hdisjoint _ _ _ hown hown']
  · rintro ⟨hwrap, hagree⟩
    refine ⟨?_, ?_, ?_⟩
    · intro a b key p q hp hq
      obtain ⟨server, kr, hs, hkr, -, hkeys, -⟩ := owns_of_run hkrs hrun hwrap hp
      obtain ⟨server', kr', hs', hkr', -, hkeys', -⟩ := owns_of_run hkrs hrun hwrap hq
      obtain ⟨len, hp⟩ := hp
      obtain ⟨len', hq⟩ := hq
      have hpicked := hagree a b key len len' (List.of_mem_zip hp).1 (List.of_mem_zip hq).1
      rw [hs, hs'] at hpicked
      obtain rfl : server = server' := Except.ok.inj hpicked
      obtain rfl : kr = kr' := Option.some.inj (hkr.symm.trans hkr')
      rw [hkeys, hkeys']
    · intro a b key key' p q hne hp hq heq
      obtain ⟨server, kr, -, hkr, -, hkeys, hown⟩ := owns_of_run hkrs hrun hwrap hp
      obtain ⟨server', kr', -, hkr', -, hkeys', hown'⟩ := owns_of_run hkrs hrun hwrap hq
      rw [hkeys, hkeys'] at heq
      have hsum := (List.cons.inj heq).1
      rw [hsum] at hown
      obtain rfl := hdisjoint _ _ _ hown hown'
      obtain rfl : kr = kr' := Option.some.inj (hkr.symm.trans hkr')
      omega
    · intro a key p hp
      obtain ⟨server, kr, -, hkr, hlt, hkeys, hown⟩ := owns_of_run hkrs hrun hwrap hp
      refine ⟨_, hkeys, ⟨server, hown⟩, fun rank hrank => ?_⟩
      obtain rfl := hdisjoint _ _ _ hown hrank
      obtain ⟨hdecode, hencode⟩ := decodeKey_of_owns hkr (Nat.le_add_right _ key) hlt
      exact ⟨hdecode.mpr rfl, hencode⟩

/-- Two servers, as `ps-lite` divides the keys among them. -/
def twoRanges : List KeyRange := [⟨0, 2 ^ 63 - 1⟩, ⟨2 ^ 63 - 1, 2 ^ 64 - 2⟩]

theorem twoRanges_disjoint (rank rank' psKey : ℕ) (h : Owns twoRanges rank psKey)
    (h' : Owns twoRanges rank' psKey) : rank = rank' := by
  obtain ⟨kr, hkr, hle, hlt⟩ := h
  obtain ⟨kr', hkr', hle', hlt'⟩ := h'
  match rank, rank' with
  | 0, 0 | 1, 1 => rfl
  | 0, 1 | 1, 0 =>
      cases hkr
      cases hkr'
      dsimp only at hle hlt hle' hlt'
      omega
  | n + 2, _ => cases hkr
  | _, n + 2 => cases hkr'

/-- A worker that sends to them by the hash of a name, and finds the given characters. -/
def twoServers (hashKnob : String) (cStr : ℕ → List ℤ) : KeyEnv where
  hashKnob := hashKnob
  keyRanges := twoRanges
  cStr := cStr
  builtInHashFn _ := 0
  builtInHashCoefficient := 1
  mixedMode := false
  hashMixedMode _ := .error .check

/-- Two workers that encode two keys in different orders, and find the digits of both. -/
theorem routesRight_two : RoutesRight twoRanges
    (fun first : Bool => if first then [(65536, .encode 8), (65537, .encode 4)]
      else [(65537, .encode 4), (65536, .encode 8)])
    (fun first => if first then [⟨[65536], [8], 8⟩, ⟨[2 ^ 63 + 65536], [4], 4⟩]
      else [⟨[2 ^ 63 + 65536], [4], 4⟩, ⟨[65536], [8], 8⟩]) := by
  refine (routesRight_iff (by decide) twoRanges_disjoint (fun _ => twoServers "djb2" decimal)
    (fun _ => rfl) _ _ fun first => ?_).mpr ⟨fun first key len hmem server kr hserver hkr => ?_,
      fun _ _ _ _ _ _ _ => rfl⟩
  · cases first <;> rfl
  · have hkey : (key, KeyOp.encode len) ∈ [(65537, KeyOp.encode 4), (65536, .encode 8)] := by
      cases first with
      | false => exact hmem
      | true => simpa [or_comm] using hmem
    simp only [List.mem_cons, Prod.mk.injEq, List.not_mem_nil, or_false] at hkey
    rcases hkey with ⟨rfl, -⟩ | ⟨rfl, -⟩
    · cases hserver
      cases hkr
      decide
    · cases hserver
      cases hkr
      decide

/-- One worker finds the digits of a key and another a zero in their place: they send the key to
different servers. -/
theorem overwritten_digits_misrouted : ∃ pskvs : Bool → List PSKV,
    (∀ digits, runKeyOps (twoServers "djb2" (if digits then decimal else fun _ => [])) (fun _ => {})
      [(65536, .encode 4)] = .ok (pskvs digits)) ∧
      ¬RoutesRight twoRanges (fun _ : Bool => [(65536, .encode 4)]) pskvs := by
  refine ⟨fun digits => if digits then [⟨[65536], [4], 4⟩] else [⟨[2 ^ 63 + 65535], [4], 4⟩],
    fun digits => ?_, fun h => ?_⟩
  · cases digits <;> rfl
  · have hsame := h.same true false 65536 _ _ ⟨4, List.mem_cons_self⟩ ⟨4, List.mem_cons_self⟩
    exact absurd hsame (by decide)

/-! ### Which lengths go with a key

A round is four operations on one entry.  What they leave is followed for an entry of any
length, and the two conditions of an entry are where the length is the size and where it is that
of an answer.
-/

/-- A round of a key: what is pushed, and what a pull is answered with. -/
structure LenRound where
  pushed : ℕ
  answered : ℕ
  deriving DecidableEq, Repr

/-- The steps of a round: the push, the pull, its answer, and the length to decompress. -/
def LenRound.ops (len : ℕ) (x : LenRound) : List KeyOp :=
  [.encode x.pushed, .encode len, .pulled x.answered, .encode 0]

/-- The lengths they should leave. -/
def LenRound.lens (len : ℕ) (x : LenRound) : List (List ℤ) :=
  [[x.pushed], [len], [x.answered], [x.answered]]

/-- The steps of a partition of `len` bytes: `InitTensor` pushes it, and the hyper-parameters when
it has a compressor, as many bytes as they are; then there are rounds. -/
def roundOps (len : ℕ) (registered : Option ℕ) (rounds : List LenRound) : List KeyOp :=
  .encode len :: (registered.toList.map .encode ++ rounds.flatMap (LenRound.ops len))

/-- The lengths they should leave. -/
def roundLens (len : ℕ) (registered : Option ℕ) (rounds : List LenRound) : List (List ℤ) :=
  [(len : ℤ)] ::
    (registered.toList.map (fun n : ℕ => [(n : ℤ)]) ++ rounds.flatMap (LenRound.lens len))

/-- The lengths of a round are in the partition. -/
structure LenRound.Within (len : ℕ) (x : LenRound) : Prop where
  pushed_pos : 0 < x.pushed
  pushed_le : x.pushed ≤ len
  answered_pos : 0 < x.answered
  answered_le : x.answered ≤ len

/-- The whole partition is only pushed after an answer as long. -/
def NoStaleLen (len : ℕ) (x y : LenRound) : Prop := y.pushed = len → x.answered = len

theorem toInt32_of_lt {n : ℕ} (h : n < 2 ^ 31) : toInt32 n = n := by
  unfold toInt32
  rw [BitVec.toInt_eq_toNat_of_lt (by rw [BitVec.toNat_ofNat]; omega), BitVec.toNat_ofNat,
    Nat.mod_eq_of_lt (by omega)]

theorem toInt32_lt (n : ℕ) : toInt32 n < 2 ^ 31 := BitVec.toInt_lt

section Rounds

variable {key len psKey : ℕ}

/-- An entry of the key with a length and a size. -/
abbrev entry (psKey len size : ℕ) : PSKV := ⟨[psKey], [(len : ℤ)], size⟩

/-- A length is written again when it is not the size. -/
theorem encode_entry {n v size : ℕ} (hn : n < 2 ^ 31) (hsize : size < 2 ^ 31) :
    (KeyOp.encode n).applyTo env key (entry psKey v size) =
      .ok (if 0 < n ∧ size ≠ n then entry psKey n n else entry psKey v size) := by
  have hsize' : toUInt64 size = size := by
    unfold toUInt64
    omega
  show PSKV.encoded _ env key n = _
  unfold PSKV.encoded PSKV.resize
  rw [if_pos (List.cons_ne_nil _ _), hsize', toInt32_of_lt hn]
  rfl

theorem pulled_entry {n v size : ℕ} (hn : n < 2 ^ 31) :
    (KeyOp.pulled n).applyTo env key (entry psKey v size) = .ok (entry psKey n size) := by
  show Except.ok (PSKV.pulled _ n) = _
  unfold PSKV.pulled
  rw [toInt32_of_lt hn]
  rfl

/-- A step of a run, when what it does to the entry is known. -/
theorem runKey_cons {op : KeyOp} {p p' : PSKV} (h : op.applyTo env key p = .ok p')
    (ops : List KeyOp) : runKey env key p (op :: ops) = (runKey env key p' ops).map (p' :: ·) := by
  rw [runKey, h]
  simp only [bind, Except.bind]
  cases runKey env key p' ops <;> rfl

/-- A round on an entry of the length `v`.  The push leaves that length if it is as long as the
size, and the pull does if the whole partition is. -/
theorem runKey_round (hlen : len < 2 ^ 31) {x : LenRound} (hx : x.Within len) {v size : ℕ}
    (hsize : size < 2 ^ 31) (ops : List KeyOp) :
    runKey env key (entry psKey v size) (x.ops len ++ ops) =
      (runKey env key (entry psKey x.answered len) ops).map fun pskvs =>
        (if size = x.pushed then entry psKey v size else entry psKey x.pushed x.pushed) ::
        (if size = x.pushed ∧ x.pushed = len then entry psKey v len else entry psKey len len) ::
        entry psKey x.answered len :: entry psKey x.answered len :: pskvs := by
  have hpos := hx.pushed_pos
  have hle := hx.pushed_le
  have hanswered := hx.answered_le
  have hpushed : (KeyOp.encode x.pushed).applyTo env key (entry psKey v size) =
      .ok (if size = x.pushed then entry psKey v size else entry psKey x.pushed x.pushed) := by
    rw [encode_entry (by omega) hsize]
    by_cases h : size = x.pushed
    · rw [if_neg (by omega), if_pos h]
    · rw [if_pos (by omega), if_neg h]
  have hpull : (KeyOp.encode len).applyTo env key
      (if size = x.pushed then entry psKey v size else entry psKey x.pushed x.pushed) =
      .ok (if size = x.pushed ∧ x.pushed = len then entry psKey v len else entry psKey len len) := by
    by_cases h : size = x.pushed
    · rw [if_pos h, encode_entry hlen hsize]
      by_cases hwhole : x.pushed = len
      · rw [if_neg (by omega), if_pos ⟨h, hwhole⟩, h, hwhole]
      · rw [if_pos (by omega), if_neg fun h' => hwhole h'.2]
    · rw [if_neg h, encode_entry hlen (by omega)]
      by_cases hwhole : x.pushed = len
      · rw [if_neg (by omega), if_neg fun h' => h h'.1, hwhole]
      · rw [if_pos (by omega), if_neg fun h' => h h'.1]
  have hanswer : (KeyOp.pulled x.answered).applyTo env key
      (if size = x.pushed ∧ x.pushed = len then entry psKey v len else entry psKey len len) =
      .ok (entry psKey x.answered len) := by
    split <;> exact pulled_entry (by omega)
  have hlookup : (KeyOp.encode 0).applyTo env key (entry psKey x.answered len) =
      .ok (entry psKey x.answered len) := by
    rw [encode_entry (by omega) hlen, if_neg (by omega)]
  unfold LenRound.ops
  simp only [List.cons_append, List.nil_append]
  rw [runKey_cons hpushed, runKey_cons hpull, runKey_cons hanswer, runKey_cons hlookup]
  cases runKey env key (entry psKey x.answered len) ops <;> rfl

/-- What a round leaves for the next one is the length of its answer. -/
theorem isChain_answered {x : LenRound} {rounds : List LenRound} :
    (x :: rounds).IsChain (NoStaleLen len) ↔
      (⟨len, x.answered⟩ :: rounds).IsChain (NoStaleLen len) := by
  cases rounds with
  | nil => simp
  | cons y rounds => simp [List.isChain_cons_cons, NoStaleLen]

/-- Rounds after an answer of the length `v` leave the right lengths if none that is not the
partition's is in the way of a push of the whole partition. -/
theorem runKey_rounds (hlen : len < 2 ^ 31) {rounds : List LenRound}
    (hrounds : ∀ x ∈ rounds, x.Within len) (v : ℕ) :
    ∃ pskvs, runKey env key (entry psKey v len) (rounds.flatMap (LenRound.ops len)) = .ok pskvs ∧
      (pskvs.map (·.lens) = rounds.flatMap (LenRound.lens len) ↔
        (⟨len, v⟩ :: rounds).IsChain (NoStaleLen len)) := by
  induction rounds generalizing v with
  | nil => exact ⟨[], rfl, by simp⟩
  | cons x rounds ih =>
      have hx := hrounds x List.mem_cons_self
      obtain ⟨pskvs, hrun, hiff⟩ :=
        ih (fun y hy => hrounds y (List.mem_cons_of_mem x hy)) x.answered
      rw [List.flatMap_cons, runKey_round hlen hx hlen, hrun]
      refine ⟨_, rfl, ?_⟩
      rw [List.isChain_cons_cons, isChain_answered, ← hiff]
      simp only [NoStaleLen, List.flatMap_cons, LenRound.lens]
      by_cases hwhole : x.pushed = len
      · simp [hwhole, entry]
      · simp [hwhole, Ne.symm hwhole, entry]

/-- Rounds after an encoding, whose length is the size, start with the right lengths whatever the
length was. -/
theorem runKey_rounds_of_encoded (hlen : len < 2 ^ 31) {rounds : List LenRound}
    (hrounds : ∀ x ∈ rounds, x.Within len) {n : ℕ} (hn : n < 2 ^ 31) :
    ∃ pskvs, runKey env key (entry psKey n n) (rounds.flatMap (LenRound.ops len)) = .ok pskvs ∧
      (pskvs.map (·.lens) = rounds.flatMap (LenRound.lens len) ↔
        rounds.IsChain (NoStaleLen len)) := by
  cases rounds with
  | nil => exact ⟨[], rfl, by simp⟩
  | cons x rounds =>
      have hx := hrounds x List.mem_cons_self
      obtain ⟨pskvs, hrun, hiff⟩ := @runKey_rounds env key len psKey hlen rounds
        (fun y hy => hrounds y (List.mem_cons_of_mem x hy)) x.answered
      rw [List.flatMap_cons, runKey_round hlen hx hn, hrun]
      refine ⟨_, rfl, ?_⟩
      rw [isChain_answered, ← hiff]
      simp only [List.flatMap_cons, LenRound.lens]
      by_cases hsame : n = x.pushed
      · subst hsame
        by_cases hwhole : x.pushed = len <;> simp [hwhole, entry]
      · simp [hsame, entry]

end Rounds

/-- The lengths the operations on a key leave. -/
def lensOf (key : ℕ) (ops : List (ℕ × KeyOp)) (pskvs : List PSKV) : List (List ℤ) :=
  (entriesOf key ops pskvs).map (·.lens)

/-- The entry of a key that is encoded for the first time, when an `int` holds the length. -/
theorem entry_of_newPSKV {key len : ℕ} {p : PSKV} (h : newPSKV env key len = .ok p)
    (hlen : len < 2 ^ 31) : ∃ psKey, p = entry psKey len len := by
  obtain ⟨server, kr, hplaced, hlens, hsize⟩ := placed_of_newPSKV h
  rw [toInt32_of_lt hlen] at hlens hsize
  refine ⟨uint64 (kr.rangeBegin + key), ?_⟩
  cases p
  cases hplaced.keys
  cases hlens
  cases hsize
  rfl

/-- The registration of hyper-parameters of a length that an `int` holds. -/
theorem runKey_registered {key len n psKey : ℕ} (hlen : len < 2 ^ 31) (hpos : 0 < n)
    (hn : n < 2 ^ 31) (ops : List KeyOp) :
    runKey env key (entry psKey len len) (.encode n :: ops) =
      (runKey env key (entry psKey n n) ops).map (entry psKey n n :: ·) := by
  have hencode : (KeyOp.encode n).applyTo env key (entry psKey len len) =
      .ok (entry psKey n n) := by
    rw [encode_entry hn hlen]
    by_cases h : len = n
    · rw [if_neg (by omega), h]
    · rw [if_pos (by omega)]
  exact runKey_cons hencode ops

/-- And of one that it does not: it is sent with another. -/
theorem lens_ne_of_long {key len n psKey : ℕ} (hlen : len < 2 ^ 31) (hn : 2 ^ 31 ≤ n) {p : PSKV}
    (h : (KeyOp.encode n).applyTo env key (entry psKey len len) = .ok p) : p.lens ≠ [(n : ℤ)] := by
  have hsize : toUInt64 len = len := by
    unfold toUInt64
    omega
  have hp : (entry psKey len len).resize n = p := Except.ok.inj h
  unfold PSKV.resize at hp
  rw [if_pos (by rw [hsize]; omega)] at hp
  have := toInt32_lt n
  rw [← hp, List.set_cons_zero, Ne, List.cons.injEq]
  omega

/--
**The lengths of a key are right when the whole partition is only pushed after an answer as
long**, and when an `int` holds the length of the partition and of its hyper-parameters.  What
happens to other keys in between does not matter.
-/
theorem lensOf_eq_roundLens_iff {key len : ℕ} {registered : Option ℕ}
    (hregistered : ∀ n ∈ registered, 0 < n) {rounds : List LenRound}
    (hrounds : ∀ x ∈ rounds, x.Within len) {ops : List (ℕ × KeyOp)}
    (hops : opsOf key ops = roundOps len registered rounds) {pskvs : List PSKV}
    (hrun : runKeyOps env (fun _ => {}) ops = .ok pskvs) :
    lensOf key ops pskvs = roundLens len registered rounds ↔
      len < 2 ^ 31 ∧ (∀ n ∈ registered, n < 2 ^ 31) ∧ rounds.IsChain (NoStaleLen len) := by
  have hkey := runKey_of_runKeyOps hrun key
  rw [hops] at hkey
  unfold roundOps at hkey
  obtain ⟨p, hp, hkey⟩ := bind_eq_ok hkey
  obtain ⟨rest, hrest, hkey⟩ := bind_eq_ok hkey
  have hentries := Except.ok.inj hkey
  have hnew : newPSKV env key len = .ok p := hp
  unfold lensOf roundLens
  rw [← hentries, List.map_cons]
  by_cases hlen : len < 2 ^ 31
  · obtain ⟨psKey, rfl⟩ := entry_of_newPSKV hnew hlen
    rw [List.cons.injEq]
    cases registered with
    | none =>
        obtain ⟨pskvs', hrun', hiff⟩ :=
          @runKey_rounds_of_encoded env key len psKey hlen rounds hrounds len hlen
        simp only [Option.toList_none, List.map_nil, List.nil_append] at hrest ⊢
        rw [hrun'] at hrest
        cases hrest
        rw [hiff]
        exact ⟨fun h => ⟨hlen, by simp, h.2⟩, fun h => ⟨trivial, h.2.2⟩⟩
    | some n =>
        simp only [Option.toList_some, List.map_cons, List.map_nil, List.cons_append,
          List.nil_append] at hrest ⊢
        by_cases hn : n < 2 ^ 31
        · obtain ⟨pskvs', hrun', hiff⟩ :=
            @runKey_rounds_of_encoded env key len psKey hlen rounds hrounds n hn
          rw [runKey_registered hlen (hregistered n rfl) hn, hrun'] at hrest
          cases hrest
          rw [List.map_cons, List.cons.injEq, hiff]
          exact ⟨fun h => ⟨hlen, fun m hm => by cases hm; exact hn, h.2.2⟩,
            fun h => ⟨trivial, rfl, h.2.2⟩⟩
        · obtain ⟨q, hq, hrest⟩ := bind_eq_ok hrest
          obtain ⟨rest', -, hrest⟩ := bind_eq_ok hrest
          cases hrest
          exact ⟨fun h => absurd (List.cons.inj h.2).1 (lens_ne_of_long hlen (by omega) hq),
            fun h => absurd (h.2.1 n rfl) hn⟩
  · obtain ⟨server, kr, hplaced, hlens, hsize⟩ := placed_of_newPSKV hnew
    refine ⟨fun h => absurd (List.cons.inj h).1 ?_, fun h => absurd h.1 hlen⟩
    rw [hlens, List.cons.injEq]
    have := toInt32_lt len
    omega

/-- A partition of 100 bytes with 30 bytes of hyper-parameters, which is compressed to 40 and then
to 60, with another key between. -/
theorem lensOf_eq_roundLens_two :
    lensOf 65536
      [(65536, .encode 100), (65537, .encode 8), (65536, .encode 30), (65536, .encode 40),
        (65536, .encode 100), (65536, .pulled 40), (65537, .encode 4), (65536, .encode 0),
        (65536, .encode 60), (65536, .encode 100), (65536, .pulled 55), (65536, .encode 0)]
      [⟨[2 ^ 63 + 65535], [100], 100⟩, ⟨[65537], [8], 8⟩, ⟨[2 ^ 63 + 65535], [30], 30⟩,
        ⟨[2 ^ 63 + 65535], [40], 40⟩, ⟨[2 ^ 63 + 65535], [100], 100⟩,
        ⟨[2 ^ 63 + 65535], [40], 100⟩, ⟨[65537], [4], 4⟩, ⟨[2 ^ 63 + 65535], [40], 100⟩,
        ⟨[2 ^ 63 + 65535], [60], 60⟩, ⟨[2 ^ 63 + 65535], [100], 100⟩,
        ⟨[2 ^ 63 + 65535], [55], 100⟩, ⟨[2 ^ 63 + 65535], [55], 100⟩] =
      roundLens 100 (some 30) [⟨40, 40⟩, ⟨60, 55⟩] := by
  have hwithin : ∀ x ∈ [(⟨40, 40⟩ : LenRound), ⟨60, 55⟩], x.Within 100 := by
    intro x hx
    simp only [List.mem_cons, List.not_mem_nil, or_false] at hx
    rcases hx with rfl | rfl
    · exact ⟨by decide, by decide, by decide, by decide⟩
    · exact ⟨by decide, by decide, by decide, by decide⟩
  have hrun : runKeyOps (twoServers "naive" decimal) (fun _ => {})
      [(65536, .encode 100), (65537, .encode 8), (65536, .encode 30), (65536, .encode 40),
        (65536, .encode 100), (65536, .pulled 40), (65537, .encode 4), (65536, .encode 0),
        (65536, .encode 60), (65536, .encode 100), (65536, .pulled 55), (65536, .encode 0)] = .ok
      [⟨[2 ^ 63 + 65535], [100], 100⟩, ⟨[65537], [8], 8⟩, ⟨[2 ^ 63 + 65535], [30], 30⟩,
        ⟨[2 ^ 63 + 65535], [40], 40⟩, ⟨[2 ^ 63 + 65535], [100], 100⟩,
        ⟨[2 ^ 63 + 65535], [40], 100⟩, ⟨[65537], [4], 4⟩, ⟨[2 ^ 63 + 65535], [40], 100⟩,
        ⟨[2 ^ 63 + 65535], [60], 60⟩, ⟨[2 ^ 63 + 65535], [100], 100⟩,
        ⟨[2 ^ 63 + 65535], [55], 100⟩, ⟨[2 ^ 63 + 65535], [55], 100⟩] := rfl
  refine (lensOf_eq_roundLens_iff (fun n hn => ?_) hwithin rfl hrun).mpr
    ⟨by decide, fun n hn => ?_, .cons_cons (fun h => absurd h (by decide)) (.singleton _)⟩
  · cases hn
    decide
  · cases hn
    decide

/-- The second push of the whole partition is sent with the length of the answer before. -/
theorem stale_len_pushed : ∃ pskvs,
    runKeyOps (twoServers "naive" decimal) (fun _ => {})
      ((roundOps 100 (some 30) [⟨100, 40⟩, ⟨100, 40⟩]).map fun op => (65536, op)) =
        .ok pskvs ∧
      lensOf 65536 ((roundOps 100 (some 30) [⟨100, 40⟩, ⟨100, 40⟩]).map fun op => (65536, op))
        pskvs ≠ roundLens 100 (some 30) [⟨100, 40⟩, ⟨100, 40⟩] :=
  ⟨_, rfl, by decide⟩

end DeepInc.Worker
