/-
Suspending and resuming a worker.

`Shutdown` clears the contexts and the counter of the declared keys, but not the names that
have been declared.  When the job is resumed, possibly with other numbers of workers and
servers, all of them are declared again in their first order, so that every tensor should
have the key it had before.
-/
import DeepInc.Worker.Context

namespace DeepInc.Worker

variable {K : Type}

namespace Global

/-- What `Shutdown` does to the tensors. -/
def shutdown (g : Global K) : Global K := { g with contexts := [], nextKey := 0 }

/-- `BytePSGlobal::ReDeclareTensor`. -/
def reDeclareTensor (g : Global K) : Global K :=
  g.declaredTensors.foldl (fun g name => (g.isTensorDeclared name).2) g

/-- The names and `declared_key`s of all contexts. -/
def declaredKeys (g : Global K) : List (String × ℕ) :=
  g.contexts.map fun c => (c.tensorName, c.declaredKey)

end Global

/-- A worker over suspensions. -/
structure Lifecycle (K : Type) where
  global : Global K
  /-- `_initialized` -/
  initialized : Bool

namespace Lifecycle

/-- After `byteps_init`. -/
def init : Lifecycle K := { global := .init, initialized := true }

/-- What is called of the library. -/
inductive Call
  | tensor (call : Global.Call)
  | suspend
  | resume

/-- `byteps_suspend`. -/
def suspend (s : Lifecycle K) : Lifecycle K :=
  { global := s.global.shutdown, initialized := false }

/-- `byteps_resume`: `Init` only sets the flag, as far as tensors go. -/
def resume (s : Lifecycle K) : Lifecycle K :=
  { global := s.global.reDeclareTensor, initialized := true }

/-- One call. -/
def call (cfg : Config) (s : Lifecycle K) : Call → Except Fault (Lifecycle K)
  | .tensor c => (s.global.step cfg c).map fun g => { s with global := g }
  | .suspend => .ok s.suspend
  | .resume => .ok s.resume

/-- Nothing is called for a tensor between a suspend and its resume. -/
def admits (s : Lifecycle K) : Call → Prop
  | .tensor _ => s.initialized = true
  | .suspend => s.initialized = true
  | .resume => s.initialized = false

/-- The names of the declarations in a list of calls. -/
def declarations (calls : List Call) : List String :=
  calls.filterMap fun
    | .tensor (.isTensorDeclared name) => some name
    | _ => none

/-- The names in the order of their first declaration. -/
def firstDeclared (calls : List Call) : List String := (declarations calls).eraseDups

end Lifecycle

end DeepInc.Worker
