/-
Starting the server.

`initGlobalEnv` reads the knobs and `startServer` builds the state the handler and the
engine threads run on.  It fills `acc_load_` and the engine queues; `flag_mu_` and the
four tables beside it are left as their definitions leave them, empty.
`State.resizeTables` is what would make room for every engine thread.
-/
import DeepInc.Server.Engine

namespace DeepInc.Server

/-- `ps::GetEnv` for a variable that holds a number. -/
def getEnv (env : String → Option ℕ) (name : String) (default : ℕ) : ℕ :=
  (env name).getD default

/-- `init_global_env`, for a server of the given cluster. -/
def initGlobalEnv (env : String → Option ℕ) (numWorkers keyBegin : ℕ) : Config :=
  { numWorkers := numWorkers
    keyBegin := keyBegin
    engineThreadNum := getEnv env "SERVER_ENGINE_THREAD" 4
    isEngineBlocking := false
    logKeyInfo := getEnv env "PS_KEY_LOG" 0 != 0
    syncMode := getEnv env "ENABLE_ASYNC" 0 == 0
    enableSchedule := getEnv env "SERVER_ENABLE_SCHEDULE" 0 != 0 }

variable {α κ : Type}

/-- `start_server`, up to the barrier that lets requests in. -/
def startServer (cfg : Config) : State α κ :=
  { timestamp := 0
    engineQueues :=
      if cfg.syncMode then .replicate cfg.engineThreadNum (.init cfg.enableSchedule)
      else .replicate 0 (.init cfg.enableSchedule)
    hand := fun _ => none
    store := fun _ => { tensor := none, len := 0, dtype := .float32 }
    allocated := 0
    updateBuf := fun _ => { request := [], merged := { tensor := none, len := 0, dtype := .float32 } }
    compressorMap := fun _ => none
    hashCache := fun _ => none
    accLoad := .replicate cfg.engineThreadNum 0
    flagMu := .replicate 0 ()
    isPushFinished := .replicate 0 fun _ => none
    qPullReqmeta := .replicate 0 fun _ => []
    seenSender := .replicate 0 fun _ => ∅
    pullCnt := .replicate 0 fun _ => 0 }

/-- The per-thread tables with room for `n` threads. -/
def State.resizeTables (s : State α κ) (n : ℕ) : State α κ :=
  { s with
    flagMu := { s.flagMu with size := n }
    isPushFinished := { s.isPushFinished with size := n }
    qPullReqmeta := { s.qPullReqmeta with size := n }
    seenSender := { s.seenSender with size := n }
    pullCnt := { s.pullCnt with size := n } }

end DeepInc.Server
