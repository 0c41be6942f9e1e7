/-
The server as one key sees it.

What one key needs of the whole is a `Slot`: its buffers, its window, the work the
engine still has for it, and where every worker is with it.  Which thread does the
work, what the load table says and what other keys do is left out, and so is everything
that can fail.  A `Step` of a slot is a request of a worker, the next piece of pending
work, or the delivery of a response; with scheduling on, pending work may also change
its order.

This is the level at which the rounds of a key are reasoned about.  `World.view` reads
the slot of a key off the whole, and every step of the whole is a step of at most one
slot.
-/
import DeepInc.Server.Protocol

namespace DeepInc.Server

/-- A piece of work of an engine thread. -/
inductive Work (α : Type)
  /-- a `COPY_FIRST` of a push of `len` bytes -/
  | first (data : Mem α) (len : ℕ)
  /-- a `SUM_RECV` -/
  | more (data : Mem α) (len : ℕ)
  /-- an `ALL_RECV` -/
  | done

/-- Whether the work ends a round. -/
def Work.isDone {α : Type} : Work α → Bool
  | done => true
  | _ => false

/-- The whole, as far as one key is concerned. -/
structure Slot (α κ : Type) where
  stored : Option (Mem α)
  /-- the senders in `updates->request` -/
  request : List ℕ
  merged : Option (Ptr α × ℕ)
  compressor : Option (Compressor α κ)
  /-- the key has an engine thread -/
  hashed : Bool
  pending : List (Work α)
  window : Window
  phase : ℕ → Phase α
  round : ℕ → ℕ
  log : List (Event α)

/-- A step of a slot. -/
inductive SlotMove
  | request (w : ℕ)
  | execute
  | deliver (w : ℕ)
  | shuffle
  deriving DecidableEq, Repr

namespace Slot

variable {α κ : Type} {cfg : Config} {codec : Codec α κ}

/-- Before anything happened. -/
def init : Slot α κ :=
  { stored := none, request := [], merged := none, compressor := none, hashed := false,
    pending := [], window := .absent, phase := fun _ => .initPush, round := fun _ => 0,
    log := [] }

/-- Where worker `w` is, changed. -/
def setPhase (v : Slot α κ) (w : ℕ) (p : Phase α) : Slot α κ :=
  { v with phase := Function.update v.phase w p }

/-- An event is recorded, and a response moves its worker on. -/
def observe (job : Job α κ cfg codec) (key : Key) (v : Slot α κ) (e : Event α) : Slot α κ :=
  let v := { v with log := e :: v.log }
  match e with
  | .pushResponse _ w => v.setPhase w (job.acked key (v.phase w))
  | .pullResponse r => v.setPhase r.sender (.answered r)
  | _ => v

/-- What a step leaves of the slot, with the events it shows. -/
def serve (job : Job α κ cfg codec) (key : Key) (r : Slot α κ × List (Event α)) : Slot α κ :=
  r.2.foldl (observe job key) r.1

/-! ### Requests -/

/-- A worker joins the others; the last one has all of them answered. -/
def collect (numWorkers : ℕ) (key : Key) (v : Slot α κ) (w : ℕ) : Slot α κ × List (Event α) :=
  if (v.request ++ [w]).length < numWorkers then ({ v with request := v.request ++ [w] }, [])
  else ({ v with request := [] }, (v.request ++ [w]).map (.pushResponse key))

/-- The init push of a worker; the data of the last one is stored. -/
def initPushed [Zero α] (job : Job α κ cfg codec) (key : Key) (v : Slot α κ) (w : ℕ) :
    Slot α κ × List (Event α) :=
  if v.request.length + 1 < cfg.numWorkers then v.collect cfg.numWorkers key w
  else
    { v with
      stored := some (CpuReducer.copy (fun _ => 0) (job.init w key) (job.len key) (job.dtype key))
      }.collect cfg.numWorkers key w

/-- The registration of a worker; the first one makes the compressor. -/
def registered (numWorkers : ℕ) (key : Key) (v : Slot α κ) (w : ℕ) (c : Compressor α κ) :
    Slot α κ × List (Event α) :=
  { v with compressor := some (v.compressor.getD c) }.collect numWorkers key w

/-- The work a push makes. -/
def pushWork (job : Job α κ cfg codec) (key : Key) (v : Slot α κ) (w : ℕ) : List (Work α) :=
  let data := job.pushed w key (v.round w)
  let len := job.pushedLen w key (v.round w)
  (if v.request = [] then .first data len else .more data len) ::
    if v.request.length + 1 = cfg.numWorkers then [.done] else []

/-- A push that leaves the given work pending. -/
def pushed (numWorkers : ℕ) (key : Key) (v : Slot α κ) (w : ℕ) (pending : List (Work α)) :
    Slot α κ × List (Event α) :=
  let sent := [.issued key (if v.request = [] then .copyFirst else .sumRecv),
    .pushResponse key w]
  if v.request.length + 1 = numWorkers then
    ({ v with hashed := true, pending := pending, request := [] },
      sent ++ [.issued key .allRecv])
  else ({ v with hashed := true, pending := pending, request := v.request ++ [w] }, sent)

/-- What a pointer of the key reads. -/
def read [Zero α] (v : Slot α κ) : Ptr α → Mem α
  | .stored _ => v.stored.getD fun _ => 0
  | .buf _ => v.compressor.elim (fun _ => 0) (·.buf)
  | .vals data => data

/-- The response a pull gets, `merged` being what a round published. -/
def response [Zero α] (key : Key) (v : Slot α κ) (merged : Ptr α × ℕ) (sender : ℕ) :
    Response α :=
  { sender := sender, key := key, ptr := merged.1, len := merged.2, snapshot := v.read merged.1 }

/-- A pull that finds its window closed, or has had its answer in it. -/
def pullLater (v : Slot α κ) (req : KVMeta) : Slot α κ × List (Event α) :=
  let w := v.window.present
  ({ v with window := { w with qPullReqmeta := w.qPullReqmeta ++ [req] } }, [])

/-- A pull that is answered. -/
def pullNow [Zero α] (numWorkers : ℕ) (key : Key) (v : Slot α κ) (merged : Ptr α × ℕ)
    (sender : ℕ) : Slot α κ × List (Event α) :=
  let w := v.window.present.count sender
  ({ v with window := if w.pullCnt = numWorkers then w.close else w },
    [.pullResponse (v.response key merged sender)])

/-- Whether a pull is answered. -/
def Answers (v : Slot α κ) (sender : ℕ) : Prop :=
  v.window.present.isPushFinished = some true ∧ sender ∉ v.window.present.seenSender

/-! ### Work -/

/-- What a push holds once it is decompressed. -/
def received (job : Job α κ cfg codec) (key : Key) (v : Slot α κ) (data : Mem α) (len : ℕ) :
    Option (Compressor α κ) × Mem α :=
  match v.compressor with
  | none => (none, data)
  | some c =>
    let c := codec.decompress c data len (job.dtype key)
    (some c, c.buf)

/-- A push is written to the stored buffer by `op`. -/
def store (job : Job α κ cfg codec) (key : Key) (v : Slot α κ)
    (op : Mem α → Mem α → ℕ → DataType → Mem α) [Zero α] (data : Mem α) (len : ℕ) : Slot α κ :=
  let r := v.received job key data len
  { v with
    compressor := r.1
    stored := some (op (v.stored.getD fun _ => 0) r.2 (job.len key) (job.dtype key)) }

/-- The result of the round becomes what pulls are answered with. -/
def publish [Zero α] (job : Job α κ cfg codec) (key : Key) (v : Slot α κ) :
    Slot α κ × Ptr α × ℕ :=
  match v.compressor with
  | none =>
    ({ v with merged := some (.stored key, job.len key) }, .stored key, job.len key)
  | some c =>
    let r := codec.compress c (v.stored.getD fun _ => 0) (job.len key) (job.dtype key)
    ({ v with compressor := some r.1, stored := some r.2.1, merged := some (.buf key, r.2.2) },
      .buf key, r.2.2)

/-- The pulls an `ALL_RECV` answers, and the window it leaves. -/
def drained (numWorkers : ℕ) : Window → List KVMeta → Window × List KVMeta
  | w, [] => (w, [])
  | w, req :: rest =>
    if req.sender ∉ w.seenSender then
      let w := w.count req.sender
      if w.pullCnt = numWorkers then
        ({ w.close with qPullReqmeta := w.qPullReqmeta ++ rest }, [req])
      else
        let r := drained numWorkers w rest
        (r.1, req :: r.2)
    else
      let w := { w with qPullReqmeta := w.qPullReqmeta ++ [req] }
      if w.pullCnt = numWorkers then
        ({ w.close with qPullReqmeta := w.qPullReqmeta ++ rest }, [])
      else drained numWorkers w rest

/-- An `ALL_RECV`. -/
def finished [Zero α] (job : Job α κ cfg codec) (key : Key) (v : Slot α κ) :
    Slot α κ × List (Event α) :=
  let r := v.publish job key
  let w := v.window.present
  let d := drained cfg.numWorkers { w with isPushFinished := some true, qPullReqmeta := [] }
    w.qPullReqmeta
  ({ r.1 with window := d.1 },
    .published key (r.1.read r.2.1) r.2.2 ::
      d.2.map fun req => .pullResponse (r.1.response key r.2 req.sender))

/-- A piece of work is done. -/
def executed [Zero α] [Add α] (job : Job α κ cfg codec) (key : Key) (v : Slot α κ) :
    Work α → Slot α κ × List (Event α)
  | .first data len => (v.store job key CpuReducer.copy data len, [])
  | .more data len => (v.store job key CpuReducer.sum data len, [])
  | .done => v.finished job key

/-- Work joins the pending work: at its end, or with scheduling on anywhere. -/
def Appends (cfg : Config) (pending more pending' : List (Work α)) : Prop :=
  pending'.Perm (pending ++ more) ∧ (cfg.enableSchedule = false → pending' = pending ++ more)

/-! ### Steps -/

variable [Zero α] [Add α]

/-- A step of a slot. -/
inductive Step (job : Job α κ cfg codec) (key : Key) : Slot α κ → SlotMove → Slot α κ → Prop
  | init {v : Slot α κ} {w : ℕ} (hw : w < cfg.numWorkers) (hp : v.phase w = .initPush)
      (hs : v.stored = none) :
      Step job key v (.request w)
        (serve job key ((v.setPhase w .initWait).initPushed job key w))
  | register {v : Slot α κ} {w : ℕ} {c : Compressor α κ} (hw : w < cfg.numWorkers)
      (hp : v.phase w = .registerPush) :
      Step job key v (.request w)
        (serve job key ((v.setPhase w .registerWait).registered cfg.numWorkers key w c))
  | push {v : Slot α κ} {w : ℕ} {pending : List (Work α)} (hw : w < cfg.numWorkers)
      (hp : v.phase w = .push) (ha : Appends cfg v.pending (v.pushWork job key w) pending) :
      Step job key v (.request w)
        (serve job key ((v.setPhase w .pushWait).pushed cfg.numWorkers key w pending))
  | pullLater {v : Slot α κ} {w : ℕ} {req : KVMeta} (hw : w < cfg.numWorkers)
      (hp : v.phase w = .pull) (hreq : req.sender = w) (ha : ¬v.Answers w) :
      Step job key v (.request w)
        (serve job key (((v.setPhase w .pullWait).observe job key (.pullRequest key w)).pullLater req))
  | pullNow {v : Slot α κ} {w : ℕ} {merged : Ptr α × ℕ} (hw : w < cfg.numWorkers)
      (hp : v.phase w = .pull) (ha : v.Answers w) (hm : v.merged = some merged) :
      Step job key v (.request w)
        (serve job key (((v.setPhase w .pullWait).observe job key (.pullRequest key w)).pullNow
          cfg.numWorkers key merged w))
  | execute {v : Slot α κ} {u : Work α} {rest : List (Work α)} (hu : v.pending = u :: rest) :
      Step job key v .execute (serve job key ({ v with pending := rest }.executed job key u))
  | deliver {v : Slot α κ} {w : ℕ} {r : Response α} (hp : v.phase w = .answered r) :
      Step job key v (.deliver w)
        { (v.observe job key (.delivered r (v.read r.ptr))).setPhase w .push with
          round := Function.update v.round w (v.round w + 1) }
  | shuffle {v : Slot α κ} {pending : List (Work α)} (hs : cfg.enableSchedule = true)
      (hperm : pending.Perm v.pending) :
      Step job key v .shuffle { v with pending := pending }

end Slot

/-! ### Reading a slot off the whole -/

variable {α κ : Type}

/-- The work a message of an engine queue stands for. -/
def EngineMessage.work (m : EngineMessage α) : Work α :=
  match m.ops with
  | .copyFirst => .first m.sarray.vals (m.sarray.lens.headD 0)
  | .sumRecv => .more m.sarray.vals (m.sarray.lens.headD 0)
  | _ => .done

/-- What a thread still has to execute: the message in hand, then its queue. -/
def State.waiting (s : State α κ) (i : ℕ) : List (EngineMessage α) :=
  (s.hand i).toList ++ (s.engineQueues.get i).queue

/-- What the server holds of a key, beside its workers. -/
def State.view (s : State α κ) (key : Key) (phase : ℕ → Phase α) (round : ℕ → ℕ)
    (log : List (Event α)) : Slot α κ :=
  { stored := (s.store key).tensor
    request := (s.updateBuf key).request.map (·.sender)
    merged := (s.updateBuf key).merged.tensor.map fun p => (p, (s.updateBuf key).merged.len)
    compressor := s.compressorMap key
    hashed := (s.hashCache key).isSome
    pending := (s.hashCache key).elim [] fun t =>
      (PriorityQueue.ofKey key (s.waiting t)).map (·.work)
    window := (s.hashCache key).elim .absent fun t => s.window t key
    phase := phase
    round := round
    log := log }

/-- The slot of a key. -/
def World.view (x : World α κ) (key : Key) : Slot α κ :=
  x.server.view key (fun w => x.phase w key) (fun w => x.round w key)
    (x.log.filter fun e => e.key = key)

end DeepInc.Server
