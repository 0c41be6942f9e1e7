/-
The compressors behind the interface of the server.

The server is built with `BYTEPS_BUILDING_SERVER`, so that a decompressed tensor goes to
the `_buf` of the compressor that the result of a round is compressed to.
-/
import DeepInc.Compressor.Kwargs
import DeepInc.Compressor.Onebit
import DeepInc.Server.State

namespace DeepInc.Server

open DeepInc.Compressor

variable {w : ℕ} {K : Type}

/-- Memory read as numbers. -/
def scalars (m : Mem (Cell w K)) : Mem K := fun i => (m i).asScalar

variable [Field K] [LinearOrder K]

/-- `OnebitCompressor`, which has no state of its own. -/
def onebitCodec (w : ℕ) (K : Type) [Field K] [LinearOrder K] (useScale : Bool) :
    Codec (Cell w K) Unit where
  create _ _ _ _ := some { state := (), buf := fun _ => 0 }
  compress c grad len _ :=
    let r := Onebit.compress useScale c.buf (scalars grad) (len / sizeofIndex w)
    ({ c with buf := r.1 }, grad, r.2)
  decompress c data len _ :=
    let chunkLen := Onebit.chunks w len
    { c with buf := fun n =>
        if n < chunkLen * w then .scalar (Onebit.decompress (scalars c.buf) data len n)
        else c.buf n }

/--
A codec whose compressors are made by `CompressorRegistry::Create` from the hyper-parameters that
are received, as bytes.
-/
def Codec.ofRegistry {κ : Type} (codec : Codec UInt8 κ)
    (registry : KwargsMap → ℕ → DataType → Option (Compressor UInt8 κ)) : Codec UInt8 κ :=
  { codec with
    create := fun vals len size dtype =>
      registry (deserialize ((List.range len).map vals)) size dtype }

end DeepInc.Server
