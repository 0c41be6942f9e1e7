/-
The key and the length a partition is sent with.

Every server owns a range of keys.  A worker chooses the server of a partition by a hash of its
key and sends it under the key, counted from the start of the server's range; what it sends
with is kept in a table from then on.  `ps-lite` is given the lengths of the table and writes
the length of an answer there.
-/
import DeepInc.Worker.Topology
import Mathlib.Logic.Function.Basic

namespace DeepInc.Worker

/-- `ps::Range`: the keys of a server, each end a `uint64_t`. -/
structure KeyRange where
  rangeBegin : ℕ
  rangeEnd : ℕ
  deriving DecidableEq, Repr

/-- `PSKV`, empty until its key is encoded. -/
structure PSKV where
  keys : List ℕ := []
  /-- of `int` -/
  lens : List ℤ := []
  /-- `int` -/
  size : ℤ := 0
  deriving DecidableEq, Repr

/-- What `EncodeDefaultKey` reads on one worker.  A worker hashes a key once, when it makes the
entry of the key, so that there is one reading of the characters for every key. -/
structure KeyEnv where
  /-- `_hash_knob` -/
  hashKnob : String
  /-- `Postoffice::GetServerKeyRanges` -/
  keyRanges : List KeyRange
  /-- the characters at `std::to_string(key).c_str()`, whose string is gone when they are read -/
  cStr : ℕ → List ℤ
  /-- `_built_in_hash_fn`, a `size_t` -/
  builtInHashFn : List ℤ → ℕ
  /-- `_built_in_hash_coefficient` -/
  builtInHashCoefficient : ℕ
  /-- `_mixed_mode` -/
  mixedMode : Bool
  /-- `Hash_Mixed_Mode` -/
  hashMixedMode : ℕ → Except Fault ℕ

/-- A number as an `int`. -/
def toInt32 (n : ℕ) : ℤ := (BitVec.ofNat 32 n).toInt

/-! ### Hash functions -/

/-- `Hash_Naive` -/
def hashNaive (key : ℕ) : ℕ := uint64 ((key / 2 ^ 16 + key % 65536) * 9973)

/-- `Hash_BuiltIn` -/
def hashBuiltIn (env : KeyEnv) (key : ℕ) : ℕ :=
  uint64 (env.builtInHashFn (env.cStr key) * env.builtInHashCoefficient)

/-- `Hash_SDBM` -/
def hashSDBM (env : KeyEnv) (key : ℕ) : ℕ :=
  (env.cStr key).foldl (fun hash c => toUInt64 (c + hash * 2 ^ 6 + hash * 2 ^ 16 - hash)) 0

/-- The server `EncodeDefaultKey` picks. -/
def serverOf (env : KeyEnv) (key : ℕ) : Except Fault ℕ :=
  let numServers := env.keyRanges.length
  if env.hashKnob = "naive" then .ok (hashNaive key % numServers)
  else if env.hashKnob = "built_in" then .ok (hashBuiltIn env key % numServers)
  else if env.hashKnob = "djb2" then .ok (hashDJB2 (env.cStr key) % numServers)
  else if env.hashKnob = "sdbm" then .ok (hashSDBM env key % numServers)
  else if env.hashKnob = "mixed" then do
    check env.mixedMode
    let server ← env.hashMixedMode key
    check (decide (server < numServers))
    .ok server
  else .error .check

/-! ### The table -/

/-- `ps_kv_` -/
abbrev KeyTable := ℕ → PSKV

/-- A key for the first time. -/
def newPSKV (env : KeyEnv) (key len : ℕ) : Except Fault PSKV := do
  check (decide (0 < env.keyRanges.length))
  let server ← serverOf env key
  let range := env.keyRanges.getD server ⟨0, 0⟩
  let psKey := uint64 (range.rangeBegin + key)
  check (decide (psKey < range.rangeEnd))
  .ok { keys := [psKey], lens := [toInt32 len], size := toInt32 len }

/-- A key again. -/
def PSKV.resize (pskv : PSKV) (len : ℕ) : PSKV :=
  if 0 < len ∧ toUInt64 pskv.size ≠ len then
    { pskv with size := toInt32 len, lens := pskv.lens.set 0 (toInt32 len) }
  else pskv

/-- What `EncodeDefaultKey` makes of the entry of a key. -/
def PSKV.encoded (pskv : PSKV) (env : KeyEnv) (key len : ℕ) : Except Fault PSKV :=
  if pskv.keys ≠ [] then .ok (pskv.resize len) else newPSKV env key len

/-- `EncodeDefaultKey` -/
def encodeDefaultKey (env : KeyEnv) (table : KeyTable) (key len : ℕ) :
    Except Fault (PSKV × KeyTable) := do
  let pskv ← (table key).encoded env key len
  .ok (pskv, Function.update table key pskv)

/-- The end of a `ZPull` into the lengths of an entry. -/
def PSKV.pulled (pskv : PSKV) (len : ℕ) : PSKV :=
  { pskv with lens := pskv.lens.set 0 (toInt32 len) }

/-- What happens to an entry of the table. -/
inductive KeyOp
  /-- `EncodeDefaultKey`, with a length or with zero to look one up -/
  | encode (len : ℕ)
  /-- the end of a `ZPull`, with the length of the answer -/
  | pulled (len : ℕ)
  deriving DecidableEq, Repr

/-- The entry and the table after it. -/
def KeyOp.apply (env : KeyEnv) (table : KeyTable) (key : ℕ) : KeyOp → Except Fault (PSKV × KeyTable)
  | encode len => encodeDefaultKey env table key len
  | pulled len =>
    let pskv := (table key).pulled len
    .ok (pskv, Function.update table key pskv)

/-- What happens to the table, one thing after another, and the entries it leaves. -/
def runKeyOps (env : KeyEnv) : KeyTable → List (ℕ × KeyOp) → Except Fault (List PSKV)
  | _, [] => .ok []
  | table, (key, op) :: ops => do
    let (pskv, table) ← op.apply env table key
    let pskvs ← runKeyOps env table ops
    .ok (pskv :: pskvs)

/-! ### At a server -/

/-- `DecodeKey` of the server of a rank. -/
def decodeKey (keyRanges : List KeyRange) (rank key : ℕ) : ℕ :=
  let kr := keyRanges.getD rank ⟨0, 0⟩
  toUInt64 (key - kr.rangeBegin)

/-- `EncodeKey` of the server of a rank. -/
def encodeKey (keyRanges : List KeyRange) (rank key : ℕ) : ℕ :=
  let kr := keyRanges.getD rank ⟨0, 0⟩
  uint64 (key + kr.rangeBegin)

/-- A request for a key is delivered to the server of a rank. -/
def Owns (keyRanges : List KeyRange) (rank key : ℕ) : Prop :=
  ∃ kr, keyRanges[rank]? = some kr ∧ kr.rangeBegin ≤ key ∧ key < kr.rangeEnd

end DeepInc.Worker
