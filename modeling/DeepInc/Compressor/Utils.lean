/-
The helpers of `utils.h`.

The random number generator, the writer and the reader of bits, and the Elias delta code
on top of them.  Words have `w` bits, and the first bit of a word is its most significant
one.
-/
import DeepInc.Compressor.Common
import DeepInc.Lib.EliasDelta
import DeepInc.Lib.Ieee
import Mathlib.Algebra.Field.Defs
import Mathlib.Data.Nat.Cast.Defs

namespace DeepInc.Compressor

/-! ### Random numbers -/

namespace Rng

/-- `xorshift128p`. -/
def xorshift128p (r : Rng) : BitVec 64 × Rng :=
  let t := r.a
  let s := r.b
  let t := t ^^^ (t <<< 23)
  let t := t ^^^ (t >>> 17)
  let t := t ^^^ (s ^^^ (s >>> 26))
  (t + s, { a := s, b := t })

/-- `Randint(0, high)`. -/
def randint (r : Rng) (high : ℕ) : ℕ × Rng :=
  let n := r.xorshift128p
  (n.1.toNat % high, n.2)

/-- `Rand()`. -/
def rand {K : Type} [NatCast K] [Div K] (r : Rng) : K × Rng :=
  let n := r.xorshift128p
  ((n.1.toNat : K) / ((2 ^ 64 - 1 : ℕ) : K), n.2)

/-- `Bernoulli(p)`. -/
def bernoulli {K : Type} [NatCast K] [Mul K] [LT K] [DecidableRel (α := K) (· < ·)] (r : Rng)
    (p : K) : Bool × Rng :=
  let n := r.xorshift128p
  (decide ((n.1.toNat : K) < p * ((2 ^ 64 - 1 : ℕ) : K)), n.2)

/-- `Bernoulli(p)`, with the conversions to `double`. -/
def bernoulliFloat (r : Rng) (p : ℚ) : Bool × Rng :=
  let n := r.xorshift128p
  let max := Ieee.double ((2 ^ 64 - 1 : ℕ) : ℚ)
  (decide (Ieee.double (n.1.toNat : ℕ) < Ieee.double (p * max)), n.2)

/-- `set_seed`. -/
def setSeed (seed : BitVec 64) : Rng := { a := seed, b := seed }

/-- The constructors of the compressors; `device` is what `std::random_device` delivered. -/
def seeded (device : Rng) (seed : BitVec 32) : Rng :=
  if seed ≠ 0 then setSeed (seed.setWidth 64) else device

end Rng

/-- `RoundNextPow2`, on `uint32_t`. -/
def roundNextPow2 (v : BitVec 32) : BitVec 32 :=
  let v := v - 1
  let v := v ||| (v >>> 1)
  let v := v ||| (v >>> 2)
  let v := v ||| (v >>> 4)
  let v := v ||| (v >>> 8)
  let v := v ||| (v >>> 16)
  v + 1

/-! ### Writing bits -/

/-- `BitWriter`. -/
structure BitWriter (w : ℕ) (K : Type) where
  data : Mem (Cell w K)
  accum : BitVec w
  usedBits : ℕ
  blocks : ℕ

namespace BitWriter

variable {w : ℕ} {K : Type}

variable [Zero K]

/-- A writer to the start of `data`. -/
def new (data : Mem (Cell w K)) : BitWriter w K :=
  { data := data, accum := 0, usedBits := 0, blocks := 0 }

/-- `Put`. -/
def put (b : BitWriter w K) (x : Bool) : BitWriter w K :=
  let accum := (b.accum <<< 1) ||| BitVec.ofNat w x.toNat
  if b.usedBits + 1 = w then
    { data := Function.update b.data b.blocks (Cell.index accum), accum := accum, usedBits := 0,
      blocks := b.blocks + 1 }
  else { b with accum := accum, usedBits := b.usedBits + 1 }

/-- `Flush`. -/
def flush (b : BitWriter w K) : BitWriter w K :=
  if 0 < b.usedBits then
    let accum := b.accum <<< (w - b.usedBits)
    { b with data := Function.update b.data b.blocks (Cell.index accum), accum := accum }
  else b

/-- `bits()`. -/
def bits (b : BitWriter w K) : ℕ := b.blocks * w + b.usedBits

/-- `blocks()`: the words the bits take, rounded up. -/
def numBlocks (b : BitWriter w K) : ℕ := (b.bits + (w - 1)) / w

/-- `std::ceil((float)bits / PACKING_SIZE)`, as a `float` has it. -/
def ceilFloat (w bits : ℕ) : ℕ := ⌈Ieee.single (Ieee.single bits / Ieee.single w)⌉₊

/-- `blocks()`, with its arithmetic on `float`. -/
def numBlocksFloat (b : BitWriter w K) : ℕ := ceilFloat w b.bits

/-- The bits of a list, one after another. -/
def putAll (b : BitWriter w K) (l : List Bool) : BitWriter w K := l.foldl put b

/-- `EliasDeltaEncode`. -/
def eliasDeltaEncode (b : BitWriter w K) (x : ℕ) : BitWriter w K :=
  let len := 1 + x.log2
  let lengthOfLen := len.log2
  let b := b.putAll (List.replicate lengthOfLen false)
  let b := b.putAll (EliasDelta.digits len (lengthOfLen + 1))
  b.putAll (EliasDelta.digits x (len - 1))

end BitWriter

/-! ### Reading bits -/

/-- `BitReader`; before its first word is read, nothing looks at `accum`. -/
structure BitReader (w : ℕ) (K : Type) where
  data : Mem (Cell w K)
  accum : BitVec w
  usedBits : ℕ
  blocks : ℕ

namespace BitReader

variable {w : ℕ} {K : Type}

/-- A reader from the start of `data`. -/
def new (data : Mem (Cell w K)) : BitReader w K :=
  { data := data, accum := 0, usedBits := 0, blocks := 0 }

/-- `1 << n`, converted to a word.  It is an `int`: no shift goes beyond its 32 bits. -/
def mask (w n : ℕ) : Except Fault (BitVec w) :=
  if n < 32 then .ok (((1 : BitVec 32) <<< n).signExtend w) else .error .shift

/-- `Get`. -/
def get (r : BitReader w K) : Except Fault (Bool × BitReader w K) := do
  let r := if r.usedBits = 0 then
      { r with accum := (r.data r.blocks).asIndex, blocks := r.blocks + 1, usedBits := w }
    else r
  let r := { r with usedBits := r.usedBits - 1 }
  let mask ← mask w r.usedBits
  .ok (r.accum &&& mask != 0, r)

/-- `bits()`. -/
def bits (r : BitReader w K) : ℕ := r.blocks * w - r.usedBits

/-- `EliasDeltaDecode`: with more than 30 zeros `len` would not be an `int`. -/
def eliasDeltaDecode (r : BitReader w K) : Except Fault (ℕ × BitReader w K) := do
  let (lengthOfLen, r) ← EliasDelta.readZeros get .codeWord 31 r 0
  let (len, r) ← EliasDelta.readDigits get lengthOfLen r 1
  let (num, r) ← EliasDelta.readDigits get (len - 1) r 1
  .ok (num % 2 ^ 64, r)

end BitReader

end DeepInc.Compressor
