import DeepInc.Lib.System
import DeepInc.Server.Queue
import DeepInc.Proofs.Server.Queue
import DeepInc.Server.State
import DeepInc.Server.Engine
import DeepInc.Server.Start
import DeepInc.Server.Protocol
import DeepInc.Lib.Outcome
import DeepInc.Proofs.Server.State
import DeepInc.Proofs.Server.Tables
import DeepInc.Proofs.Server.Slot
import DeepInc.Proofs.Server.Rounds
import DeepInc.Proofs.Server.View
import DeepInc.Proofs.Server.Execution
import DeepInc.Proofs.Server.Simulation
import DeepInc.Proofs.Server.Pulls
import DeepInc.Proofs.Server.Sums
import DeepInc.Proofs.Server.Answers
import DeepInc.Compressor.Common
import DeepInc.Lib.EliasDelta
import DeepInc.Proofs.Server.Async
import DeepInc.Compressor.Dithering
import DeepInc.Compressor.ErrorFeedback
import DeepInc.Proofs.Server.Results
import DeepInc.Proofs.Compressor.Sparse
import DeepInc.Proofs.Compressor.Onebit
import DeepInc.Proofs.Compressor.BitStream
import DeepInc.Proofs.Compressor.Dithering
import DeepInc.Proofs.Compressor.ErrorFeedback
import DeepInc.Compressor.Registry
import DeepInc.Lib.Tiling
import DeepInc.Worker.Context
import DeepInc.Proofs.Worker.Partition
import DeepInc.Proofs.Worker.Keys
import DeepInc.Proofs.Worker.Compress
import DeepInc.Compressor.Footprint
import DeepInc.Proofs.Compressor.Footprint
import DeepInc.Proofs.Worker.Footprint
import DeepInc.Proofs.Server.Votes
import DeepInc.Proofs.Server.Startup
import DeepInc.Proofs.Server.Barriers
import DeepInc.Lib.ByteMemory
import DeepInc.Worker.Topology
import DeepInc.Worker.Transfer
import DeepInc.Proofs.Worker.Chunks
import DeepInc.Proofs.Worker.PcieReduce
import DeepInc.Proofs.Worker.Nccl
import DeepInc.Proofs.Worker.RoundTrip
import DeepInc.Worker.Pipeline
import DeepInc.Proofs.Worker.Pipeline
import DeepInc.Proofs.Worker.Callback
import DeepInc.Proofs.Worker.Tracing
import DeepInc.Lib.Gather
import DeepInc.Proofs.Worker.KeyRounds
import DeepInc.Proofs.Compressor.Topk
import DeepInc.Proofs.Compressor.Records
import DeepInc.Proofs.Compressor.StreamSize
import DeepInc.Proofs.Compressor.Trailer
import DeepInc.Proofs.Worker.KeyEncoding
import DeepInc.Proofs.Worker.QueueHistory
import DeepInc.Proofs.Worker.Credits
import DeepInc.Proofs.Worker.KeyTask
import DeepInc.Proofs.Worker.Machine
import DeepInc.Proofs.Worker.Lifecycle
import DeepInc.Compressor.Kwargs
import DeepInc.Proofs.Compressor.Kwargs
import DeepInc.Common.Command
import DeepInc.Proofs.Common.Command
import DeepInc.Proofs.Worker.Advance
import DeepInc.Proofs.Worker.MixedMode
import DeepInc.Lib.PowerOfTwo
import DeepInc.Proofs.Compressor.Levels
import DeepInc.Common.HalfFloat
import DeepInc.Lib.Binary
import DeepInc.Proofs.Common.HalfFloat
import DeepInc.Common.SumFloat16
import DeepInc.Proofs.Common.SumFloat16
import DeepInc.Lib.XorShift
import DeepInc.Proofs.Compressor.Random
import DeepInc.Proofs.Server.Allocation
import DeepInc.Proofs.Compressor.Blocks
import DeepInc.Lib.Grid
import DeepInc.Proofs.Worker.Rings
import DeepInc.Compressor.Momentum
import DeepInc.Proofs.Compressor.Momentum
import DeepInc.Lib.Fair
import DeepInc.Proofs.Server.Backlog
import DeepInc.Proofs.Server.Liveness
import DeepInc.Proofs.AllReduce
import DeepInc.Common.ThreadPool
import DeepInc.Proofs.Common.ThreadPool
import DeepInc.Proofs.Worker.Calls
import DeepInc.Proofs.Worker.Drain
import DeepInc.Common.Half
import DeepInc.Lib.FloatModel
import DeepInc.Proofs.Common.Half
import DeepInc.Compressor.OnebitScalar
import DeepInc.Proofs.Compressor.OnebitScalar
