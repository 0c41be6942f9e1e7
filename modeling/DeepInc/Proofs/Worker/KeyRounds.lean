/-
The rounds of one key.

What the devices of a machine do for a key, without the queues: where its task is on every
device, the signals on their way, and the counts of its tables.  The root is device `n`, and the
others have smaller numbers.

A round of a key is a walk through the stages on every device, and the devices keep in step by
signals.  The others tell the root when they are ready for a reduction, for a push and for a
broadcast; the root counts these, and goes on when it has heard all.  It tells them when to make
a call and when to copy.

Every count says how far a device has got.  Those of one device are in step because its task
goes through the stages in order; those of two devices are because of the signals.  Put
together, no device is ahead of another by more than a round, and that is what the tables count
on: a count never goes beyond the number it is compared with, and it is cleared before the next
signal of that kind can come.

Compression is in between, at the root only.  It takes the key from the queue in front of the
push, and restores the count that was cleared when it was taken.
-/
import DeepInc.Lib.Gather
import DeepInc.Lib.System
import DeepInc.Worker.Machine
import Mathlib.Data.List.Infix

namespace DeepInc.Worker

open Transition Gather

/-! ### What is counted -/

section Counts

variable (log : List Machine.Event) (d : ℕ) (op : QueueType) (signal : CommSignal) (k : ℕ)

/-- How many rounds of a key a device has begun. -/
def begunCount : ℕ := log.count (.begun d k)

/-- How often a loop has taken a key. -/
def gotCount : ℕ := log.count (.got d op k)

/-- How often a device has finished a stage of a key. -/
def finishedCount : ℕ := log.count (.finished d op k)

/-- How often a signal was heard for a key. -/
def heardCount : ℕ := log.count (.heard signal d k)

end Counts

section CountSimp

variable {log : List Machine.Event} {d d' k : ℕ} {op op' : QueueType} {signal signal' : CommSignal}

@[simp] theorem begunCount_begun : begunCount (.begun d' k :: log) d k =
    begunCount log d k + if d' = d then 1 else 0 := by
  unfold begunCount
  rw [List.count_cons]
  simp

@[simp] theorem begunCount_got : begunCount (.got d' op k :: log) d k = begunCount log d k :=
  List.count_cons_of_ne (by simp)

@[simp] theorem begunCount_finished :
    begunCount (.finished d' op k :: log) d k = begunCount log d k :=
  List.count_cons_of_ne (by simp)

@[simp] theorem begunCount_heard :
    begunCount (.heard signal d' k :: log) d k = begunCount log d k :=
  List.count_cons_of_ne (by simp)

@[simp] theorem gotCount_begun : gotCount (.begun d' k :: log) d op k = gotCount log d op k :=
  List.count_cons_of_ne (by simp)

@[simp] theorem gotCount_got : gotCount (.got d' op' k :: log) d op k =
    gotCount log d op k + if d' = d ∧ op' = op then 1 else 0 := by
  unfold gotCount
  rw [List.count_cons]
  simp

@[simp] theorem gotCount_finished :
    gotCount (.finished d' op' k :: log) d op k = gotCount log d op k :=
  List.count_cons_of_ne (by simp)

@[simp] theorem gotCount_heard :
    gotCount (.heard signal d' k :: log) d op k = gotCount log d op k :=
  List.count_cons_of_ne (by simp)

@[simp] theorem finishedCount_begun :
    finishedCount (.begun d' k :: log) d op k = finishedCount log d op k :=
  List.count_cons_of_ne (by simp)

@[simp] theorem finishedCount_got :
    finishedCount (.got d' op' k :: log) d op k = finishedCount log d op k :=
  List.count_cons_of_ne (by simp)

@[simp] theorem finishedCount_finished : finishedCount (.finished d' op' k :: log) d op k =
    finishedCount log d op k + if d' = d ∧ op' = op then 1 else 0 := by
  unfold finishedCount
  rw [List.count_cons]
  simp

@[simp] theorem finishedCount_heard :
    finishedCount (.heard signal d' k :: log) d op k = finishedCount log d op k :=
  List.count_cons_of_ne (by simp)

@[simp] theorem heardCount_begun :
    heardCount (.begun d' k :: log) d signal k = heardCount log d signal k :=
  List.count_cons_of_ne (by simp)

@[simp] theorem heardCount_got :
    heardCount (.got d' op k :: log) d signal k = heardCount log d signal k :=
  List.count_cons_of_ne (by simp)

@[simp] theorem heardCount_finished :
    heardCount (.finished d' op k :: log) d signal k = heardCount log d signal k :=
  List.count_cons_of_ne (by simp)

@[simp] theorem heardCount_heard : heardCount (.heard signal' d' k :: log) d signal k =
    heardCount log d signal k + if signal' = signal ∧ d' = d then 1 else 0 := by
  unfold heardCount
  rw [List.count_cons]
  simp

end CountSimp

/-! ### Stages

The stages of a device depend on what it is: the root has all of them, with or without the
compression, and the others have those at which data is moved on their device.
-/

/-- The stages of the root, and of the other devices. -/
def rootStages : List QueueType := [.reduce, .copyD2H, .push, .pull, .copyH2D, .broadcast]

def compressedStages : List QueueType :=
  [.reduce, .copyD2H, .compress, .push, .pull, .decompress, .copyH2D, .broadcast]

def peerStages : List QueueType :=
  [.coordinateReduce, .reduce, .copyD2H, .coordinatePush, .copyH2D, .coordinateBroadcast,
    .broadcast]

/-- The stages every task of a device has. -/
def stagesFor (n d : ℕ) : List QueueType := if d = n then rootStages else peerStages

/-- The stages a task of a device may have. -/
def AllowedStages (n d : ℕ) (stages : List QueueType) : Prop :=
  stages = stagesFor n d ∨ d = n ∧ stages = compressedStages

/-- Stages come in their order, whatever is left of a task. -/
theorem left_pairwise {n d : ℕ} {stages left : List QueueType} (h : AllowedStages n d stages)
    (hleft : left <:+ stages) : (stagesFor n d).Pairwise fun op op' =>
      op ∈ left → op' ∈ left ∧ left.head? ≠ some op' := by
  have hroot : ∀ left ∈ rootStages.tails, rootStages.Pairwise fun op op' =>
      op ∈ left → op' ∈ left ∧ left.head? ≠ some op' := by decide
  have hcompressed : ∀ left ∈ compressedStages.tails, rootStages.Pairwise fun op op' =>
      op ∈ left → op' ∈ left ∧ left.head? ≠ some op' := by decide
  have hpeer : ∀ left ∈ peerStages.tails, peerStages.Pairwise fun op op' =>
      op ∈ left → op' ∈ left ∧ left.head? ≠ some op' := by decide
  unfold AllowedStages at h
  by_cases hd : d = n
  · have hfor : stagesFor n d = rootStages := if_pos hd
    rw [hfor] at h ⊢
    rcases h with rfl | ⟨_, rfl⟩
    · exact hroot left ((List.mem_tails _ _).mpr hleft)
    · exact hcompressed left ((List.mem_tails _ _).mpr hleft)
  · have hfor : stagesFor n d = peerStages := if_neg hd
    rw [hfor] at h ⊢
    rcases h with rfl | ⟨hdn, _⟩
    · exact hpeer left ((List.mem_tails _ _).mpr hleft)
    · exact absurd hdn hd

theorem AllowedStages.nodup {n d : ℕ} {stages : List QueueType} (h : AllowedStages n d stages) :
    stages.Nodup := by
  unfold AllowedStages stagesFor at h
  rcases h with rfl | ⟨_, rfl⟩
  · split <;> decide
  · decide

theorem AllowedStages.mem {n d : ℕ} {stages : List QueueType} (h : AllowedStages n d stages)
    {op : QueueType} (hop : op ∈ stagesFor n d) : op ∈ stages := by
  rcases h with rfl | ⟨hd, rfl⟩
  · exact hop
  · have hsub : ∀ op ∈ rootStages, op ∈ compressedStages := by decide
    rw [stagesFor, if_pos hd] at hop
    exact hsub op hop

/-! ### The state of a key

`KeyState` is what `view` makes of a machine, and `Step` what a machine can do with one key.
The guards are those of the loops: a stage is taken when its table is full.
-/

/-- Where the task of a key is on a device: what is left of it, and whether a loop has it. -/
abbrev Position : Type := List QueueType × Bool

/-- What a machine has to do with one key. -/
@[ext]
structure KeyState where
  /-- of every device; nothing is left when there is no task -/
  position : ℕ → Position
  /-- the signals of a device for the root, not yet heard -/
  sending : ℕ → CommSignal → ℕ
  /-- the signals of the root for a device, not yet heard -/
  coming : ℕ → CommSignal → ℕ
  compressing : ℕ
  table : ℕ → TableName → ℤ
  log : List Machine.Event

namespace KeyState

def start : KeyState where
  position _ := ([], false)
  sending _ _ := 0
  coming _ _ := 0
  compressing := 0
  table _ _ := 0
  log := []

/-- What is left of a task. -/
def left (s : KeyState) (d : ℕ) : List QueueType := (s.position d).1

/-- The table a device takes a stage by. -/
def tableAt (n d : ℕ) (op : QueueType) : Option TableName :=
  readyTableOf ⟨decide (d = n), decide (d = n), false⟩ op

/-- What a full table counts. -/
def readyAt (n : ℕ) : TableName → ℤ
  | .push | .reduce | .broadcast => n
  | .copy => 1
  | .pcieReduce => 0

/-- What the root tells the other devices when it has taken a stage. -/
def callOf : QueueType → Option CommSignal
  | .reduce => some .doReduce
  | .broadcast => some .doBroadcast
  | .copyH2D => some .doCopyH2D
  | _ => none

/-- What another device tells the root when it has finished a stage. -/
def readyOf (op : QueueType) : Option CommSignal := (Machine.coordinateSignal op).map (·.2)

/-- What is done with a key of a machine whose root is device `n`. -/
inductive Step (n k : ℕ) (s : KeyState) : KeyState → Prop
  /-- a device enqueues the key -/
  | begin (d : ℕ) (stages : List QueueType) (hd : d ≤ n) (hstages : AllowedStages n d stages)
      (hidle : s.left d = []) :
      Step n k s { s with
        position := Function.update s.position d (stages, false)
        log := .begun d k :: s.log }
  /-- a loop takes the key when its table is full -/
  | take (d : ℕ) (op : QueueType) (rest : List QueueType) (hd : d ≤ n)
      (hposition : s.position d = (op :: rest, false))
      (hloop : d = n ∨ op ≠ .reduce ∧ op ≠ .broadcast)
      (hready : ∀ name, tableAt n d op = some name → s.table d name = readyAt n name) :
      Step n k s { s with
        position := Function.update s.position d (op :: rest, true)
        table := fun d' name => if d' = d ∧ tableAt n d op = some name then 0 else s.table d' name
        coming := fun i signal =>
          if d = n ∧ i < n ∧ callOf op = some signal then s.coming i signal + 1
          else s.coming i signal
        compressing := if op = .compress then s.compressing + 1 else s.compressing
        log := .got d op k :: s.log }
  /-- a device takes the key when the root tells it to -/
  | call (i : ℕ) (op : QueueType) (signal : CommSignal) (rest : List QueueType) (hi : i < n)
      (hcall : Machine.stageOfCall signal = some op) (hcoming : 0 < s.coming i signal)
      (hposition : s.position i = (op :: rest, false)) :
      Step n k s { s with
        position := Function.update s.position i (op :: rest, true)
        coming := fun i' signal' =>
          if i' = i ∧ signal' = signal then s.coming i' signal' - 1 else s.coming i' signal'
        log := .got i op k :: s.log }
  /-- a stage is finished -/
  | finish (d : ℕ) (op : QueueType) (rest : List QueueType) (hd : d ≤ n)
      (hposition : s.position d = (op :: rest, true))
      (hcompress : op = .compress → s.compressing = 0) :
      Step n k s { s with
        position := Function.update s.position d (rest, false)
        sending := fun i signal =>
          if i = d ∧ readyOf op = some signal then s.sending i signal + 1 else s.sending i signal
        log := .finished d op k :: s.log }
  /-- the thread pool restores the count -/
  | restore (hcompressing : 0 < s.compressing) :
      Step n k s { s with
        table := fun d name => if d = n ∧ name = .push then n else s.table d name
        compressing := s.compressing - 1 }
  /-- the root hears a signal -/
  | hear (i : ℕ) (signal : CommSignal) (name : TableName) (hi : i < n)
      (hname : Machine.tableOfSignal signal = some name) (hsending : 0 < s.sending i signal) :
      Step n k s { s with
        sending := fun i' signal' =>
          if i' = i ∧ signal' = signal then s.sending i' signal' - 1 else s.sending i' signal'
        table := fun d name' =>
          if d = n ∧ name' = name then s.table d name' + 1 else s.table d name'
        log := .heard signal i k :: s.log }
  /-- a device hears that it may copy -/
  | copy (i : ℕ) (hi : i < n) (hcoming : 0 < s.coming i .doCopyH2D) :
      Step n k s { s with
        coming := fun i' signal =>
          if i' = i ∧ signal = .doCopyH2D then s.coming i' signal - 1 else s.coming i' signal
        table := fun d name => if d = i ∧ name = .copy then s.table d name + 1 else s.table d name
        log := .heard .doCopyH2D i k :: s.log }

/-! ### The invariant

For each device its counts differ by where its task is, and for each pair of the root and
another device the signals sent are those that are counted, cleared or on their way.
-/

/-- A stage is still to be finished. -/
def owes (position : Position) (op : QueueType) : ℕ := if op ∈ position.1 then 1 else 0

/-- A stage is still to be taken for. -/
def awaits (position : Position) (op : QueueType) : ℕ :=
  if op ∈ position.1 ∧ ¬(position.2 = true ∧ position.1.head? = some op) then 1 else 0

/-- When a device takes the key to push it, and when it takes it to copy it back. -/
def InOrder (n k : ℕ) (e : Machine.Event) (past : List Machine.Event) : Prop :=
  (∀ op, e = .got n op k → op = .push ∨ op = .compress →
    ∀ d ≤ n, begunCount past n k ≤ finishedCount past d .copyD2H k) ∧
  ∀ d ≤ n, e = .got d .copyH2D k → begunCount past d k ≤ finishedCount past n .pull k

/-- What holds of a key throughout a run. -/
structure Inv (n k : ℕ) (s : KeyState) : Prop where
  stages : ∀ d ≤ n, ∃ stages, AllowedStages n d stages ∧ s.left d <:+ stages
  counts : ∀ d ≤ n, ∀ op ∈ stagesFor n d,
    gotCount s.log d op k + awaits (s.position d) op = begunCount s.log d k ∧
      finishedCount s.log d op k + owes (s.position d) op = begunCount s.log d k
  reduce : Gathered n (heardCount s.log · .reduceReady k) (gotCount s.log n .reduce k)
    (s.table n .reduce)
  broadcast : Gathered n (heardCount s.log · .bcastReady k) (gotCount s.log n .broadcast k)
    (s.table n .broadcast)
  push : Gathered n (heardCount s.log · .pushReady k) (gotCount s.log n .push k + s.compressing)
    (s.table n .push)
  sent : ∀ i < n, ∀ op signal, readyOf op = some signal →
    heardCount s.log i signal k + s.sending i signal = finishedCount s.log i op k
  unsent : ∀ i < n, ∀ signal, (∀ op, readyOf op ≠ some signal) → s.sending i signal = 0
  called : ∀ i < n, ∀ op signal, Machine.stageOfCall signal = some op →
    gotCount s.log i op k + s.coming i signal = gotCount s.log n op k
  copied : ∀ i < n, heardCount s.log i .doCopyH2D k + s.coming i .doCopyH2D =
    gotCount s.log n .copyH2D k
  copy : ∀ i < n, 0 ≤ s.table i .copy ∧
    s.table i .copy + gotCount s.log i .copyH2D k = heardCount s.log i .doCopyH2D k
  compressing : s.compressing ≤ 1 ∧
    (0 < s.compressing → ∃ rest, s.position n = (.compress :: rest, true))
  inOrder : Always (InOrder n k) s.log

theorem inv_start (n k : ℕ) : start.Inv n k where
  stages d _ := ⟨stagesFor n d, .inl rfl, List.nil_suffix⟩
  counts _ _ _ _ := ⟨rfl, rfl⟩
  reduce := .start fun _ _ => rfl
  broadcast := .start fun _ _ => rfl
  push := .start fun _ _ => rfl
  sent _ _ _ _ _ := rfl
  unsent _ _ _ _ := rfl
  called _ _ _ _ _ := rfl
  copied _ _ := rfl
  copy _ _ := ⟨Int.le_refl 0, rfl⟩
  compressing := ⟨Nat.zero_le 1, fun h => absurd h (Nat.lt_irrefl 0)⟩
  inOrder := always_nil

/-! ### Who is ahead of whom

From the invariant, by arithmetic: what was signalled before it could be counted, and what was
counted before it could be taken.
-/

@[simp] theorem stagesFor_root (n : ℕ) : stagesFor n n = rootStages := if_pos rfl

theorem stagesFor_peer {n i : ℕ} (hi : i < n) : stagesFor n i = peerStages :=
  if_neg (Nat.ne_of_lt hi)

theorem awaits_le_owes (position : Position) (op : QueueType) :
    awaits position op ≤ owes position op := by
  unfold awaits owes
  by_cases hop : op ∈ position.1
  · rw [if_pos hop]
    split <;> omega
  · rw [if_neg hop, if_neg fun h => hop h.1]

theorem owes_le (position : Position) (op : QueueType) : owes position op ≤ 1 := by
  unfold owes
  split <;> omega

namespace Inv

variable {n k : ℕ} {s : KeyState}

/-- One device takes, finishes, and is never more than a round behind itself. -/
theorem bounds (h : s.Inv n k) {d : ℕ} (hd : d ≤ n) {op : QueueType} (hop : op ∈ stagesFor n d) :
    finishedCount s.log d op k ≤ gotCount s.log d op k ∧
      gotCount s.log d op k ≤ begunCount s.log d k ∧
      begunCount s.log d k ≤ finishedCount s.log d op k + 1 := by
  obtain ⟨hgot, hfinished⟩ := h.counts d hd op hop
  have := awaits_le_owes (s.position d) op
  have := owes_le (s.position d) op
  omega

/-- A stage is taken for after the ones before it are finished. -/
theorem order (h : s.Inv n k) {d : ℕ} (hd : d ≤ n) {op op' : QueueType}
    (hops : [op, op'].Sublist (stagesFor n d)) :
    gotCount s.log d op' k ≤ finishedCount s.log d op k := by
  obtain ⟨stages, hstages, hleft⟩ := h.stages d hd
  have hpair := List.pairwise_pair.mp ((left_pairwise hstages hleft).sublist hops)
  obtain ⟨_, hfinished⟩ := h.counts d hd op (hops.subset (by simp))
  obtain ⟨hgot, _⟩ := h.counts d hd op' (hops.subset (by simp))
  have howes : owes (s.position d) op ≤ awaits (s.position d) op' := by
    unfold owes awaits
    by_cases hop : op ∈ (s.position d).1
    · obtain ⟨hop', hhead⟩ := hpair hop
      rw [if_pos hop, if_pos ⟨hop', fun hboth => hhead hboth.2⟩]
    · rw [if_neg hop]
      exact Nat.zero_le _
  omega

/-- What a device has taken for is finished or in hand. -/
theorem begun_of_mem (h : s.Inv n k) {d : ℕ} (hd : d ≤ n) {op : QueueType} {rest : List QueueType}
    (hposition : s.position d = (op :: rest, false)) {op' : QueueType} (hop : op' ∈ stagesFor n d)
    (hmem : op' ∈ op :: rest) : gotCount s.log d op' k + 1 = begunCount s.log d k := by
  obtain ⟨hgot, _⟩ := h.counts d hd op' hop
  have hawaits : awaits (s.position d) op' = 1 := by
    unfold awaits
    rw [hposition, if_pos ⟨hmem, fun hboth => by cases hboth.1⟩]
  omega

/-- What is not left any more is finished. -/
theorem finished_of_not_mem (h : s.Inv n k) {d : ℕ} (hd : d ≤ n) {op : QueueType}
    (hop : op ∈ stagesFor n d) (hmem : op ∉ s.left d) :
    finishedCount s.log d op k = begunCount s.log d k := by
  obtain ⟨_, hfinished⟩ := h.counts d hd op hop
  have howes : owes (s.position d) op = 0 := if_neg hmem
  omega

variable {i : ℕ} (h : s.Inv n k) (hi : i < n)

include h hi

theorem peer_bounds {op : QueueType} (hop : op ∈ peerStages) :
    finishedCount s.log i op k ≤ gotCount s.log i op k ∧
      gotCount s.log i op k ≤ begunCount s.log i k ∧
      begunCount s.log i k ≤ finishedCount s.log i op k + 1 :=
  h.bounds (Nat.le_of_lt hi) (by rwa [stagesFor_peer hi])

theorem peer_order {op op' : QueueType} (hops : [op, op'].Sublist peerStages) :
    gotCount s.log i op' k ≤ finishedCount s.log i op k :=
  h.order (Nat.le_of_lt hi) (by rwa [stagesFor_peer hi])

omit hi in
theorem root_order {op op' : QueueType} (hops : [op, op'].Sublist rootStages) :
    gotCount s.log n op' k ≤ finishedCount s.log n op k :=
  h.order (Nat.le_refl n) (by rwa [stagesFor_root])

omit hi in
theorem root_bounds {op : QueueType} (hop : op ∈ rootStages) :
    finishedCount s.log n op k ≤ gotCount s.log n op k ∧
      gotCount s.log n op k ≤ begunCount s.log n k ∧
      begunCount s.log n k ≤ finishedCount s.log n op k + 1 :=
  h.bounds (Nat.le_refl n) (by rwa [stagesFor_root])

/-- No device is ahead of the root by more than a round. -/
theorem reduce_ahead :
    finishedCount s.log i .coordinateReduce k ≤ gotCount s.log n .reduce k + 1 := by
  have hcalled := h.called i hi .reduce .doReduce rfl
  have hfirst := h.peer_bounds hi (show QueueType.coordinateReduce ∈ peerStages by decide)
  have hreduce := h.peer_bounds hi (show QueueType.reduce ∈ peerStages by decide)
  omega

theorem broadcast_ahead :
    finishedCount s.log i .coordinateBroadcast k ≤ gotCount s.log n .broadcast k + 1 := by
  have hcalled := h.called i hi .broadcast .doBroadcast rfl
  have hfirst := h.peer_bounds hi (show QueueType.coordinateBroadcast ∈ peerStages by decide)
  have hbroadcast := h.peer_bounds hi (show QueueType.broadcast ∈ peerStages by decide)
  omega

theorem push_ahead : finishedCount s.log i .coordinatePush k ≤ gotCount s.log n .push k + 1 := by
  have hcopied := h.copied i hi
  have hcopy := h.copy i hi
  have hfirst := h.peer_bounds hi (show QueueType.coordinatePush ∈ peerStages by decide)
  have hback := h.peer_bounds hi (show QueueType.copyH2D ∈ peerStages by decide)
  have hroot := h.root_order (show [QueueType.push, .copyH2D].Sublist rootStages by decide)
  have hpush := h.root_bounds (show QueueType.push ∈ rootStages by decide)
  omega

theorem heard_le {op : QueueType} {signal : CommSignal} (hop : readyOf op = some signal) :
    heardCount s.log i signal k ≤ finishedCount s.log i op k := by
  have := h.sent i hi op signal hop
  omega

omit h hi in
theorem heard_ahead_reduce (h : s.Inv n k) (i : ℕ) (hi : i < n) :
    heardCount s.log i .reduceReady k ≤ gotCount s.log n .reduce k + 1 :=
  (h.heard_le hi rfl).trans (h.reduce_ahead hi)

omit h hi in
theorem heard_ahead_broadcast (h : s.Inv n k) (i : ℕ) (hi : i < n) :
    heardCount s.log i .bcastReady k ≤ gotCount s.log n .broadcast k + 1 :=
  (h.heard_le hi rfl).trans (h.broadcast_ahead hi)

omit h hi in
theorem heard_ahead_push (h : s.Inv n k) (i : ℕ) (hi : i < n) :
    heardCount s.log i .pushReady k ≤ gotCount s.log n .push k + s.compressing + 1 := by
  have hheard : heardCount s.log i .pushReady k ≤ finishedCount s.log i .coordinatePush k :=
    h.heard_le hi rfl
  have := h.push_ahead hi
  omega

/-! ### What the signals guarantee -/

/-- A signal finds its table short of it. -/
theorem table_lt {signal : CommSignal} {name : TableName}
    (hname : Machine.tableOfSignal signal = some name) (hsending : 0 < s.sending i signal) :
    s.table n name < readyAt n name := by
  have hmissing {op : QueueType} (hop : readyOf op = some signal) :
      heardCount s.log i signal k + 1 ≤ finishedCount s.log i op k := by
    have := h.sent i hi op signal hop
    omega
  cases signal with
  | reduceReady =>
      cases hname
      have := hmissing (rfl : readyOf .coordinateReduce = some .reduceReady)
      have := h.reduce_ahead hi
      exact h.reduce.count_lt h.heard_ahead_reduce hi (by omega)
  | bcastReady =>
      cases hname
      have := hmissing (rfl : readyOf .coordinateBroadcast = some .bcastReady)
      have := h.broadcast_ahead hi
      exact h.broadcast.count_lt h.heard_ahead_broadcast hi (by omega)
  | pushReady =>
      cases hname
      have := hmissing (rfl : readyOf .coordinatePush = some .pushReady)
      have := h.push_ahead hi
      exact h.push.count_lt h.heard_ahead_push hi (by omega)
  | pcieReduceReady =>
      have hnone := h.unsent i hi .pcieReduceReady fun op => by cases op <;> decide
      omega
  | doReduce | doBroadcast | doGroup | doCopyH2D => cases hname

/-- A device that may copy has not been told so yet. -/
theorem copy_lt_one (hcoming : 0 < s.coming i .doCopyH2D) : s.table i .copy < 1 := by
  have hcopied := h.copied i hi
  have hcopy := h.copy i hi
  have hroot := h.root_order (show [QueueType.push, .copyH2D].Sublist rootStages by decide)
  have hpush := h.root_bounds (show QueueType.push ∈ rootStages by decide)
  have hheard := h.push.le i hi
  have hsent : heardCount s.log i .pushReady k ≤ finishedCount s.log i .coordinatePush k :=
    h.heard_le hi rfl
  have hfirst := h.peer_bounds hi (show QueueType.coordinatePush ∈ peerStages by decide)
  have hback := h.peer_bounds hi (show QueueType.copyH2D ∈ peerStages by decide)
  omega

/-- A device that is told to make a call has the key in the queue for it. -/
theorem position_of_coming {op : QueueType} {signal : CommSignal}
    (hcall : Machine.stageOfCall signal = some op) (hcoming : 0 < s.coming i signal) :
    ∃ rest, s.position i = (op :: rest, false) := by
  obtain ⟨stages, hstages, hleft⟩ := h.stages i (Nat.le_of_lt hi)
  have hstages : stages = peerStages := by
    rcases hstages with rfl | ⟨hin, _⟩
    · exact stagesFor_peer hi
    · exact absurd hin (Nat.ne_of_lt hi)
  have hcalled := h.called i hi op signal hcall
  -- the stage is still to be taken for, and the one that announced it is finished
  have hfirst {first : QueueType} {ready : CommSignal} (hready : readyOf first = some ready)
      (hle : gotCount s.log n op k ≤ heardCount s.log i ready k) (hmem : first ∈ peerStages)
      (hop : op ∈ peerStages) : awaits (s.position i) op = 1 ∧ first ∉ s.left i := by
    obtain ⟨hgot, _⟩ := h.counts i (Nat.le_of_lt hi) op (by rwa [stagesFor_peer hi])
    obtain ⟨_, hfinished⟩ := h.counts i (Nat.le_of_lt hi) first (by rwa [stagesFor_peer hi])
    have hheard := h.heard_le hi hready
    have hle' := (awaits_le_owes (s.position i) op).trans (owes_le (s.position i) op)
    have howes : owes (s.position i) first = 0 := by omega
    refine ⟨by omega, fun hin => ?_⟩
    have hone : owes (s.position i) first = 1 := if_pos hin
    omega
  have hhead {first : QueueType} (hboth : awaits (s.position i) op = 1 ∧ first ∉ s.left i)
      (htails : ∀ left ∈ peerStages.tails, op ∈ left → first ∉ left → left.head? = some op) :
      ∃ rest, s.position i = (op :: rest, false) := by
    obtain ⟨hawaits, hnot⟩ := hboth
    unfold awaits at hawaits
    split at hawaits
    · rename_i hcond
      have hhead := htails (s.left i) ((List.mem_tails _ _).mpr (hstages ▸ hleft)) hcond.1 hnot
      obtain ⟨rest, hrest⟩ := List.head?_eq_some_iff.mp hhead
      have htaken : (s.position i).2 = false :=
        Bool.eq_false_iff.mpr fun htrue => hcond.2 ⟨htrue, hhead⟩
      exact ⟨rest, Prod.ext hrest htaken⟩
    · omega
  cases signal with
  | doReduce =>
      cases hcall
      exact hhead (hfirst (rfl : readyOf .coordinateReduce = some .reduceReady) (h.reduce.le i hi)
        (by decide) (by decide)) (by decide)
  | doBroadcast =>
      cases hcall
      exact hhead (hfirst (rfl : readyOf .coordinateBroadcast = some .bcastReady)
        (h.broadcast.le i hi) (by decide) (by decide)) (by decide)
  | reduceReady | bcastReady | pushReady | pcieReduceReady | doGroup | doCopyH2D => cases hcall

end Inv

/-! ### Every step keeps it

A step changes one device, or one signal.  What has to be shown again are the counts of that
device and of that kind of signal; for all others the invariant is as it was.
-/

section Positions

variable {op : QueueType} {rest : List QueueType}

theorem awaits_taken (op op' : QueueType) (rest : List QueueType) :
    awaits (op :: rest, true) op' + (if op = op' then 1 else 0) =
      awaits (op :: rest, false) op' := by
  unfold awaits
  by_cases hop : op = op'
  · subst hop
    simp
  · simp [hop]

theorem awaits_finished (hnot : op ∉ rest) (op' : QueueType) :
    awaits (rest, false) op' = awaits (op :: rest, true) op' := by
  unfold awaits
  by_cases hop : op = op'
  · subst hop
    simp [hnot]
  · simp [hop, Ne.symm hop]

theorem owes_finished (hnot : op ∉ rest) (op' : QueueType) :
    owes (rest, false) op' + (if op = op' then 1 else 0) = owes (op :: rest, true) op' := by
  unfold owes
  by_cases hop : op = op'
  · subst hop
    simp [hnot]
  · simp [hop, Ne.symm hop]

end Positions

/-- Every signal to the root is for one stage. -/
theorem readyOf_inj {op op' : QueueType} {signal : CommSignal} (h : readyOf op = some signal)
    (h' : readyOf op' = some signal) : op = op' := by
  cases op <;> cases h <;> cases op' <;> first | rfl | cases h'

/-- The tables of the root. -/
theorem tableAt_root (n : ℕ) (op : QueueType) : tableAt n n op =
    match op with
    | .reduce => some .reduce
    | .compress | .push => some .push
    | .broadcast => some .broadcast
    | _ => none := by
  unfold tableAt
  rw [decide_eq_true rfl]
  cases op <;> rfl

/-- The table of another device. -/
theorem tableAt_peer {n d : ℕ} (hd : d ≠ n) (op : QueueType) :
    tableAt n d op = if op = .copyH2D then some .copy else none := by
  unfold tableAt
  rw [decide_eq_false hd]
  cases op <;> rfl

namespace Inv

variable {n k : ℕ} {s : KeyState}

theorem nodup_left (h : s.Inv n k) {d : ℕ} (hd : d ≤ n) : (s.left d).Nodup := by
  obtain ⟨stages, hstages, hleft⟩ := h.stages d hd
  exact hstages.nodup.sublist hleft.sublist

/-- Only the root compresses. -/
theorem eq_root_of_compress (h : s.Inv n k) {d : ℕ} (hd : d ≤ n) (hmem : .compress ∈ s.left d) :
    d = n := by
  obtain ⟨stages, hstages, hleft⟩ := h.stages d hd
  by_contra hne
  have hpeer : stages = peerStages := by
    rcases hstages with rfl | ⟨hin, _⟩
    · exact if_neg hne
    · exact absurd hin hne
  have hin := hleft.subset hmem
  rw [hpeer] at hin
  exact absurd hin (by decide)

/-- One device begins, takes or finishes, and the others stay where they are. -/
theorem stages_update (h : s.Inv n k) {d : ℕ} {position : Position}
    (hleft : ∃ stages, AllowedStages n d stages ∧ position.1 <:+ stages) (d' : ℕ) (hd' : d' ≤ n) :
    ∃ stages, AllowedStages n d' stages ∧
      (Function.update s.position d position d').1 <:+ stages := by
  by_cases hdd : d' = d
  · subst hdd
    rw [Function.update_self]
    exact hleft
  · rw [Function.update_of_ne hdd]
    exact h.stages d' hd'

/-- A task is taken: its position, and what is counted. -/
theorem counts_got (h : s.Inv n k) {d : ℕ} {op : QueueType} {rest : List QueueType}
    (hposition : s.position d = (op :: rest, false)) (d' : ℕ) (hd' : d' ≤ n) (op' : QueueType)
    (hop' : op' ∈ stagesFor n d') :
    gotCount (.got d op k :: s.log) d' op' k +
        awaits (Function.update s.position d (op :: rest, true) d') op' =
      begunCount (.got d op k :: s.log) d' k ∧
    finishedCount (.got d op k :: s.log) d' op' k +
        owes (Function.update s.position d (op :: rest, true) d') op' =
      begunCount (.got d op k :: s.log) d' k := by
  obtain ⟨hgot, hfinished⟩ := h.counts d' hd' op' hop'
  rw [gotCount_got, begunCount_got, finishedCount_got]
  by_cases hdd : d' = d
  · subst hdd
    rw [Function.update_self]
    rw [hposition] at hgot hfinished
    have := awaits_taken op op' rest
    have howes : owes (op :: rest, true) op' = owes (op :: rest, false) op' := rfl
    simp only [true_and]
    omega
  · rw [Function.update_of_ne hdd, if_neg fun hboth => hdd hboth.1.symm]
    exact ⟨hgot, hfinished⟩

/-- What is being compressed stays at the root while another device moves. -/
theorem compressing_update (h : s.Inv n k) {d : ℕ} (position : List QueueType × Bool)
    (hne : 0 < s.compressing → ∀ rest, s.position n = (.compress :: rest, true) → n ≠ d) :
    s.compressing ≤ 1 ∧ (0 < s.compressing →
      ∃ rest, Function.update s.position d position n = (.compress :: rest, true)) := by
  refine ⟨h.compressing.1, fun hpos => ?_⟩
  obtain ⟨rest, hposition⟩ := h.compressing.2 hpos
  exact ⟨rest, (Function.update_of_ne (hne hpos rest hposition) _ _).trans hposition⟩

theorem begin_step (h : s.Inv n k) {d : ℕ} {stages : List QueueType}
    (hstages : AllowedStages n d stages) (hidle : s.left d = []) :
    Inv n k { s with
      position := Function.update s.position d (stages, false)
      log := .begun d k :: s.log } where
  stages := h.stages_update ⟨stages, hstages, List.suffix_refl _⟩
  counts d' hd' op hop := by
    obtain ⟨hgot, hfinished⟩ := h.counts d' hd' op hop
    dsimp only
    rw [gotCount_begun, begunCount_begun, finishedCount_begun]
    by_cases hdd : d' = d
    · subst hdd
      rw [Function.update_self, if_pos rfl]
      have hmem := hstages.mem hop
      have hnot : op ∉ (s.position d').1 := by
        change op ∉ s.left d'
        rw [hidle]
        exact List.not_mem_nil
      have hawaits : awaits (s.position d') op = 0 := if_neg fun hboth => hnot hboth.1
      have howes : owes (s.position d') op = 0 := if_neg hnot
      have hawaits' : awaits (stages, false) op = 1 := if_pos ⟨hmem, fun hboth => by cases hboth.1⟩
      have howes' : owes (stages, false) op = 1 := if_pos hmem
      omega
    · rw [Function.update_of_ne hdd, if_neg (Ne.symm hdd)]
      exact ⟨hgot, hfinished⟩
  reduce := by simpa using h.reduce
  broadcast := by simpa using h.broadcast
  push := by simpa using h.push
  sent := by simpa using h.sent
  unsent := h.unsent
  called := by simpa using h.called
  copied := by simpa using h.copied
  copy := by simpa using h.copy
  compressing := by
    refine h.compressing_update _ fun _ rest hposition => ?_
    rintro rfl
    rw [left, hposition] at hidle
    cases hidle
  inOrder := always_cons.mpr ⟨⟨fun _ he => (by cases he), fun _ _ he => (by cases he)⟩, h.inOrder⟩

theorem finish_step (h : s.Inv n k) {d : ℕ} {op : QueueType} {rest : List QueueType} (hd : d ≤ n)
    (hposition : s.position d = (op :: rest, true))
    (hcompress : op = .compress → s.compressing = 0) :
    Inv n k { s with
      position := Function.update s.position d (rest, false)
      sending := fun i signal =>
        if i = d ∧ readyOf op = some signal then s.sending i signal + 1 else s.sending i signal
      log := .finished d op k :: s.log } where
  stages := by
    obtain ⟨stages, hstages, hleft⟩ := h.stages d hd
    rw [left, hposition] at hleft
    exact h.stages_update ⟨stages, hstages, (List.suffix_cons op rest).trans hleft⟩
  counts d' hd' op' hop' := by
    obtain ⟨hgot, hfinished⟩ := h.counts d' hd' op' hop'
    dsimp only
    rw [gotCount_finished, begunCount_finished, finishedCount_finished]
    by_cases hdd : d' = d
    · subst hdd
      have hnodup := h.nodup_left hd
      rw [left, hposition] at hnodup
      have hnot := (List.nodup_cons.mp hnodup).1
      rw [Function.update_self]
      rw [hposition] at hgot hfinished
      have := awaits_finished hnot op'
      have := owes_finished hnot op'
      simp only [true_and]
      omega
    · rw [Function.update_of_ne hdd, if_neg fun hboth => hdd hboth.1.symm]
      exact ⟨hgot, hfinished⟩
  reduce := by simpa using h.reduce
  broadcast := by simpa using h.broadcast
  push := by simpa using h.push
  sent i hi op' signal hop' := by
    have hold := h.sent i hi op' signal hop'
    have hsame : readyOf op = some signal ↔ op = op' :=
      ⟨fun hop => readyOf_inj hop hop', fun heq => heq ▸ hop'⟩
    dsimp only
    rw [heardCount_finished, finishedCount_finished]
    by_cases hboth : i = d ∧ op = op'
    · rw [if_pos ⟨hboth.1, hsame.mpr hboth.2⟩, if_pos ⟨hboth.1.symm, hboth.2⟩]
      omega
    · rw [if_neg fun h => hboth ⟨h.1, hsame.mp h.2⟩, if_neg fun h => hboth ⟨h.1.symm, h.2⟩]
      exact hold
  unsent i hi signal hnone := by
    dsimp only
    rw [if_neg fun hboth => hnone op hboth.2]
    exact h.unsent i hi signal hnone
  called := by simpa using h.called
  copied := by simpa using h.copied
  copy := by simpa using h.copy
  compressing := by
    refine h.compressing_update _ fun hpos rest' hposition' => ?_
    rintro rfl
    obtain ⟨rfl, _⟩ := List.cons.inj (Prod.mk.inj (hposition.symm.trans hposition')).1
    have := hcompress rfl
    omega
  inOrder := always_cons.mpr ⟨⟨fun _ he => (by cases he), fun _ _ he => (by cases he)⟩, h.inOrder⟩

/-- While the key is not being compressed nothing is to be restored. -/
theorem compressing_eq_zero (h : s.Inv n k) {op : QueueType} {rest : List QueueType}
    (hposition : s.position n = (op :: rest, false)) : s.compressing = 0 := by
  by_contra hne
  obtain ⟨rest', htaken⟩ := h.compressing.2 (Nat.pos_of_ne_zero hne)
  rw [hposition] at htaken
  cases (Prod.mk.inj htaken).2

/-- What is left of a task of the root that is to be pushed. -/
theorem root_left_of_push (h : s.Inv n k) {op : QueueType} {rest : List QueueType}
    (hposition : s.position n = (op :: rest, false)) (hop : op = .push ∨ op = .compress) :
    .push ∈ op :: rest ∧ .copyD2H ∉ op :: rest := by
  obtain ⟨stages, hstages, hleft⟩ := h.stages n (Nat.le_refl n)
  rw [left, hposition] at hleft
  have htails (stages : List QueueType) (htails : ∀ left ∈ stages.tails,
      left.head? = some .push ∨ left.head? = some .compress → .push ∈ left ∧ .copyD2H ∉ left)
      (hleft : op :: rest <:+ stages) : .push ∈ op :: rest ∧ .copyD2H ∉ op :: rest := by
    refine htails (op :: rest) ((List.mem_tails _ _).mpr hleft) ?_
    rcases hop with rfl | rfl
    · exact .inl rfl
    · exact .inr rfl
  rcases hstages with rfl | ⟨_, rfl⟩
  · rw [stagesFor_root] at hleft
    exact htails rootStages (by decide) hleft
  · exact htails compressedStages (by decide) hleft

/-- What is left of a task of the root that is to be copied back. -/
theorem root_left_of_copyH2D (h : s.Inv n k) {rest : List QueueType}
    (hposition : s.position n = (.copyH2D :: rest, false)) : .pull ∉ s.left n := by
  obtain ⟨stages, hstages, hleft⟩ := h.stages n (Nat.le_refl n)
  have hhead : (s.left n).head? = some .copyH2D := by
    rw [left, hposition]
    rfl
  have htails (stages : List QueueType) (htails : ∀ left ∈ stages.tails,
      left.head? = some .copyH2D → .pull ∉ left) (hleft : s.left n <:+ stages) :
      .pull ∉ s.left n :=
    htails _ ((List.mem_tails _ _).mpr hleft) hhead
  rcases hstages with rfl | ⟨_, rfl⟩
  · rw [stagesFor_root] at hleft
    exact htails rootStages (by decide) hleft
  · exact htails compressedStages (by decide) hleft

/-- **A task is pushed when all devices have copied it.** -/
theorem copied_of_push (h : s.Inv n k) {op : QueueType} {rest : List QueueType}
    (hposition : s.position n = (op :: rest, false)) (hop : op = .push ∨ op = .compress)
    (hfull : s.table n .push = n) (d : ℕ) (hd : d ≤ n) :
    begunCount s.log n k ≤ finishedCount s.log d .copyD2H k := by
  obtain ⟨hmem, hnot⟩ := h.root_left_of_push hposition hop
  rcases Nat.lt_or_eq_of_le hd with hlt | heq
  · have hbegun := h.begun_of_mem (Nat.le_refl n) hposition
      (by rw [stagesFor_root]; decide : QueueType.push ∈ stagesFor n n) hmem
    have hzero := h.compressing_eq_zero hposition
    have hheard := h.push.full h.heard_ahead_push hfull hlt
    have hsent : heardCount s.log d .pushReady k ≤ finishedCount s.log d .coordinatePush k :=
      h.heard_le hlt rfl
    have hbounds := h.peer_bounds hlt (show QueueType.coordinatePush ∈ peerStages by decide)
    have horder := h.peer_order hlt
      (show [QueueType.copyD2H, .coordinatePush].Sublist peerStages by decide)
    omega
  · rw [heq]
    have hmem : QueueType.copyD2H ∈ stagesFor n n := by rw [stagesFor_root]; decide
    refine Nat.le_of_eq (h.finished_of_not_mem (Nat.le_refl n) hmem ?_).symm
    rw [left, hposition]
    exact hnot

/-- **A task is copied back when the root has pulled it.** -/
theorem pulled_of_copyH2D (h : s.Inv n k) {d : ℕ} {rest : List QueueType} (hd : d ≤ n)
    (hposition : s.position d = (.copyH2D :: rest, false))
    (hfull : d ≠ n → s.table d .copy = 1) :
    begunCount s.log d k ≤ finishedCount s.log n .pull k := by
  rcases Nat.lt_or_eq_of_le hd with hlt | heq
  · have hbegun := h.begun_of_mem hd hposition
      (by rw [stagesFor_peer hlt]; decide : QueueType.copyH2D ∈ stagesFor n d) List.mem_cons_self
    have hcopy := (h.copy d hlt).2
    have hfull := hfull (Nat.ne_of_lt hlt)
    have hcopied := h.copied d hlt
    have horder := h.root_order (show [QueueType.pull, .copyH2D].Sublist rootStages by decide)
    omega
  · subst heq
    have hmem : QueueType.pull ∈ stagesFor d d := by rw [stagesFor_root]; decide
    exact Nat.le_of_eq (h.finished_of_not_mem hd hmem (h.root_left_of_copyH2D hposition)).symm

/-- The stages of NCCL, and the signals the root has them called by. -/
theorem callOf_eq_iff {op op' : QueueType} {signal : CommSignal}
    (h : Machine.stageOfCall signal = some op') : callOf op = some signal ↔ op = op' := by
  cases signal with
  | doReduce =>
      cases h
      cases op <;> decide
  | doBroadcast =>
      cases h
      cases op <;> decide
  | reduceReady | pcieReduceReady | bcastReady | pushReady | doGroup | doCopyH2D => cases h

theorem callOf_eq_doCopyH2D (op : QueueType) : callOf op = some .doCopyH2D ↔ op = .copyH2D := by
  cases op <;> decide

/-- The calls are for the stages of NCCL. -/
theorem stageOfCall_eq {signal : CommSignal} {op : QueueType}
    (h : Machine.stageOfCall signal = some op) : op = .reduce ∨ op = .broadcast := by
  cases signal with
  | doReduce =>
      cases h
      exact .inl rfl
  | doBroadcast =>
      cases h
      exact .inr rfl
  | reduceReady | pcieReduceReady | bcastReady | pushReady | doGroup | doCopyH2D => cases h

/-- The root takes a stage when its table is full, and clears it. -/
theorem gathered_got {d : ℕ} {op : QueueType} {name : TableName} {signal : CommSignal} {rounds : ℕ}
    (hready : ∀ name, tableAt n d op = some name → s.table d name = readyAt n name)
    (hg : Gathered n (heardCount s.log · signal k) rounds (s.table n name))
    (hahead : ∀ i < n, heardCount s.log i signal k ≤ rounds + 1) (hname : readyAt n name = n) :
    Gathered n (heardCount (.got d op k :: s.log) · signal k)
      (rounds + if n = d ∧ tableAt n d op = some name then 1 else 0)
      (if n = d ∧ tableAt n d op = some name then 0 else s.table n name) := by
  have hfull : n = d ∧ tableAt n d op = some name → s.table n name = n := by
    intro hover
    rw [← hname, ← hready name hover.2, hover.1]
  simpa using hg.take hahead _ hfull

/-- The stages the root takes by the counts of the other devices. -/
theorem root_takes_reduce {d : ℕ} {op : QueueType} :
    n = d ∧ tableAt n d op = some .reduce ↔ d = n ∧ op = .reduce := by
  constructor
  · rintro ⟨rfl, htable⟩
    rw [tableAt_root] at htable
    cases op <;> first | exact ⟨rfl, rfl⟩ | cases htable
  · rintro ⟨rfl, rfl⟩
    exact ⟨rfl, tableAt_root d .reduce⟩

theorem root_takes_broadcast {d : ℕ} {op : QueueType} :
    n = d ∧ tableAt n d op = some .broadcast ↔ d = n ∧ op = .broadcast := by
  constructor
  · rintro ⟨rfl, htable⟩
    rw [tableAt_root] at htable
    cases op <;> first | exact ⟨rfl, rfl⟩ | cases htable
  · rintro ⟨rfl, rfl⟩
    exact ⟨rfl, tableAt_root d .broadcast⟩

theorem root_takes_push {d : ℕ} {op : QueueType} (hroot : op = .compress → d = n) :
    n = d ∧ tableAt n d op = some .push ↔ d = n ∧ op = .push ∨ op = .compress := by
  constructor
  · rintro ⟨rfl, htable⟩
    rw [tableAt_root] at htable
    cases op <;> first | exact .inl ⟨rfl, rfl⟩ | exact .inr rfl | cases htable
  · rintro (⟨rfl, rfl⟩ | rfl)
    · exact ⟨rfl, tableAt_root d .push⟩
    · obtain rfl := hroot rfl
      exact ⟨rfl, tableAt_root d .compress⟩

/-- Only the root takes what it calls for before it has called. -/
theorem called_got (h : s.Inv n k) {d : ℕ} {op : QueueType}
    (hloop : d = n ∨ op ≠ .reduce ∧ op ≠ .broadcast) {i : ℕ} (hi : i < n) {op' : QueueType}
    {signal : CommSignal} (hcall : Machine.stageOfCall signal = some op') :
    gotCount (.got d op k :: s.log) i op' k +
        (if d = n ∧ i < n ∧ callOf op = some signal then s.coming i signal + 1
        else s.coming i signal) =
      gotCount (.got d op k :: s.log) n op' k := by
  have hold := h.called i hi op' signal hcall
  rw [gotCount_got, gotCount_got]
  simp only [callOf_eq_iff hcall, hi, true_and]
  rcases hloop with hroot | hnot
  · have hne : d ≠ i := by omega
    have hne' : n ≠ i := by omega
    simp only [hroot, true_and, hne', false_and, if_false]
    by_cases hop : op = op'
    · simp only [hop, if_true]
      omega
    · simp only [hop, if_false]
      omega
  · have hne : op ≠ op' := by
      rcases stageOfCall_eq hcall with rfl | rfl
      · exact hnot.1
      · exact hnot.2
    simp only [hne, and_false, if_false]
    exact hold

/-- A device that copies back has used up that it may. -/
theorem copy_got (h : s.Inv n k) {d : ℕ} {op : QueueType}
    (hready : ∀ name, tableAt n d op = some name → s.table d name = readyAt n name) {i : ℕ}
    (hi : i < n) (count : ℤ)
    (hcount : count = if i = d ∧ tableAt n d op = some .copy then 0 else s.table i .copy) :
    0 ≤ count ∧ count + gotCount (.got d op k :: s.log) i .copyH2D k =
      heardCount (.got d op k :: s.log) i .doCopyH2D k := by
  have hold := h.copy i hi
  rw [heardCount_got, gotCount_got, hcount]
  by_cases hdi : i = d
  · subst hdi
    have htable := tableAt_peer (Nat.ne_of_lt hi) op
    by_cases hop : op = .copyH2D
    · rw [if_pos hop] at htable
      have hone : s.table i .copy = 1 := hready .copy htable
      rw [if_pos ⟨rfl, htable⟩, if_pos ⟨rfl, hop⟩]
      refine ⟨Int.le_refl 0, ?_⟩
      push_cast
      omega
    · rw [if_neg hop] at htable
      simp only [htable, hop, and_false, reduceCtorEq, if_false]
      exact hold
  · rw [if_neg fun hboth => hdi hboth.1, if_neg fun hboth => hdi hboth.1.symm]
    exact hold

theorem take_step (h : s.Inv n k) {d : ℕ} {op : QueueType} {rest : List QueueType} (hd : d ≤ n)
    (hposition : s.position d = (op :: rest, false))
    (hloop : d = n ∨ op ≠ .reduce ∧ op ≠ .broadcast)
    (hready : ∀ name, tableAt n d op = some name → s.table d name = readyAt n name) :
    Inv n k { s with
      position := Function.update s.position d (op :: rest, true)
      table := fun d' name => if d' = d ∧ tableAt n d op = some name then 0 else s.table d' name
      coming := fun i signal =>
        if d = n ∧ i < n ∧ callOf op = some signal then s.coming i signal + 1
        else s.coming i signal
      compressing := if op = .compress then s.compressing + 1 else s.compressing
      log := .got d op k :: s.log } where
  stages := by
    obtain ⟨stages, hstages, hleft⟩ := h.stages d hd
    rw [left, hposition] at hleft
    exact h.stages_update ⟨stages, hstages, hleft⟩
  counts := h.counts_got hposition
  reduce := by
    have hg := gathered_got hready h.reduce h.heard_ahead_reduce rfl
    simp only [root_takes_reduce] at hg
    dsimp only
    simp only [root_takes_reduce]
    rw [gotCount_got]
    exact hg
  broadcast := by
    have hg := gathered_got hready h.broadcast h.heard_ahead_broadcast rfl
    simp only [root_takes_broadcast] at hg
    dsimp only
    simp only [root_takes_broadcast]
    rw [gotCount_got]
    exact hg
  push := by
    have hg := gathered_got hready h.push h.heard_ahead_push rfl
    have hroot : op = .compress → d = n := fun hop => h.eq_root_of_compress hd (by
      rw [left, hposition, hop]
      exact List.mem_cons_self)
    have hrounds : gotCount s.log n .push k + s.compressing +
        (if d = n ∧ op = .push ∨ op = .compress then 1 else 0) =
        gotCount s.log n .push k + (if d = n ∧ op = .push then 1 else 0) +
          if op = .compress then s.compressing + 1 else s.compressing := by
      by_cases hcompress : op = .compress
      · subst hcompress
        simp
        omega
      · simp only [hcompress, or_false, if_false]
        omega
    simp only [root_takes_push hroot] at hg
    dsimp only
    simp only [root_takes_push hroot]
    rw [gotCount_got, ← hrounds]
    exact hg
  sent := by simpa using h.sent
  unsent := h.unsent
  called i hi op' signal hcall := h.called_got hloop hi hcall
  copied i hi := by
    have hold := h.copied i hi
    dsimp only
    rw [heardCount_got, gotCount_got]
    simp only [callOf_eq_doCopyH2D, hi, true_and]
    by_cases hboth : d = n ∧ op = .copyH2D
    · rw [if_pos hboth, if_pos hboth]
      omega
    · rw [if_neg hboth, if_neg hboth]
      exact hold
  copy i hi := h.copy_got hready hi _ rfl
  compressing := by
    dsimp only
    by_cases hop : op = .compress
    · subst hop
      have hdn : d = n :=
        h.eq_root_of_compress hd (by rw [left, hposition]; exact List.mem_cons_self)
      subst hdn
      have hzero := h.compressing_eq_zero hposition
      rw [if_pos rfl, hzero]
      exact ⟨Nat.le_refl 1, fun _ => ⟨rest, Function.update_self ..⟩⟩
    · rw [if_neg hop]
      refine h.compressing_update _ fun _ rest' htaken => ?_
      rintro rfl
      rw [htaken] at hposition
      cases (Prod.mk.inj hposition).2
  inOrder := by
    refine always_cons.mpr ⟨⟨?_, ?_⟩, h.inOrder⟩
    · intro op' he hop d' hd'
      cases he
      have htable : tableAt n n op = some .push := by
        rw [tableAt_root]
        rcases hop with rfl | rfl <;> rfl
      exact h.copied_of_push hposition hop (hready .push htable) d' hd'
    · intro d' hd' he
      cases he
      refine h.pulled_of_copyH2D hd hposition ?_
      intro hne
      refine hready .copy ?_
      rw [tableAt_peer hne, if_pos rfl]

theorem call_step (h : s.Inv n k) {i : ℕ} {op : QueueType} {signal : CommSignal}
    {rest : List QueueType} (hi : i < n) (hcall : Machine.stageOfCall signal = some op)
    (hcoming : 0 < s.coming i signal) (hposition : s.position i = (op :: rest, false)) :
    Inv n k { s with
      position := Function.update s.position i (op :: rest, true)
      coming := fun i' signal' =>
        if i' = i ∧ signal' = signal then s.coming i' signal' - 1 else s.coming i' signal'
      log := .got i op k :: s.log } := by
  have hne : i ≠ n := Nat.ne_of_lt hi
  have hother : op ≠ .push ∧ op ≠ .compress ∧ op ≠ .copyH2D ∧ signal ≠ .doCopyH2D := by
    rcases stageOfCall_eq hcall with rfl | rfl <;> refine ⟨by decide, by decide, by decide, ?_⟩ <;>
      rintro rfl <;> cases hcall
  obtain ⟨hpush, hcompress, hcopy, hsignal⟩ := hother
  have hroot (op' : QueueType) :
      gotCount (.got i op k :: s.log) n op' k = gotCount s.log n op' k := by
    rw [gotCount_got, if_neg fun hboth => hne hboth.1, Nat.add_zero]
  constructor
  · obtain ⟨stages, hstages, hleft⟩ := h.stages i (Nat.le_of_lt hi)
    rw [left, hposition] at hleft
    exact h.stages_update ⟨stages, hstages, hleft⟩
  · exact h.counts_got hposition
  · simpa [hroot] using h.reduce
  · simpa [hroot] using h.broadcast
  · simpa [hroot] using h.push
  · simpa using h.sent
  · exact h.unsent
  · intro i' hi' op' signal' hcall'
    have hold := h.called i' hi' op' signal' hcall'
    dsimp only
    rw [hroot, gotCount_got]
    by_cases hii : i' = i
    · subst hii
      by_cases hop : op = op'
      · subst hop
        have heq : signal' = signal := by
          have hof := (callOf_eq_iff hcall').mpr rfl
          have hof' := (callOf_eq_iff hcall).mpr rfl
          exact Option.some.inj (hof.symm.trans hof')
        subst heq
        rw [if_pos ⟨rfl, rfl⟩, if_pos ⟨rfl, rfl⟩]
        omega
      · have hdiff : signal' ≠ signal := by
          rintro rfl
          exact hop (Option.some.inj (hcall.symm.trans hcall'))
        rw [if_neg fun hboth => hop hboth.2, if_neg fun hboth => hdiff hboth.2]
        exact hold
    · rw [if_neg fun hboth => hii hboth.1.symm, if_neg fun hboth => hii hboth.1]
      exact hold
  · intro i' hi'
    have hold := h.copied i' hi'
    dsimp only
    rw [hroot, heardCount_got, if_neg fun hboth => hsignal hboth.2.symm]
    exact hold
  · intro i' hi'
    have hold := h.copy i' hi'
    dsimp only
    rw [gotCount_got, heardCount_got, if_neg fun hboth => hcopy hboth.2]
    exact hold
  · refine ⟨h.compressing.1, fun hpos => ?_⟩
    obtain ⟨rest', htaken⟩ := h.compressing.2 hpos
    exact ⟨rest', (Function.update_of_ne (Ne.symm hne) _ _).trans htaken⟩
  · refine always_cons.mpr ⟨⟨?_, ?_⟩, h.inOrder⟩
    · intro op' he hop
      cases he
      exact absurd rfl hne
    · intro d hd he
      cases he
      exact absurd rfl hcopy

theorem restore_step (h : s.Inv n k) (hcompressing : 0 < s.compressing) :
    Inv n k { s with
      table := fun d name => if d = n ∧ name = .push then n else s.table d name
      compressing := s.compressing - 1 } := by
  have hone : s.compressing = 1 := by
    have := h.compressing.1
    omega
  -- what was cleared for the compression is there again for the push
  have hheard (i : ℕ) (hi : i < n) :
      heardCount s.log i .pushReady k = gotCount s.log n .push k + 1 := by
    have hle := h.push.le i hi
    have hsent : heardCount s.log i .pushReady k ≤ finishedCount s.log i .coordinatePush k :=
      h.heard_le hi rfl
    have hahead := h.push_ahead hi
    omega
  constructor
  · exact h.stages
  · exact h.counts
  · simpa using h.reduce
  · simpa using h.broadcast
  · simpa [hone] using Gathered.refill hheard
  · exact h.sent
  · exact h.unsent
  · exact h.called
  · exact h.copied
  · simpa using h.copy
  · refine ⟨(Nat.sub_le _ _).trans h.compressing.1, fun hpos => ?_⟩
    exact h.compressing.2 hcompressing
  · exact h.inOrder

theorem hear_step (h : s.Inv n k) {i : ℕ} {signal : CommSignal} {name : TableName} (hi : i < n)
    (hname : Machine.tableOfSignal signal = some name) (hsending : 0 < s.sending i signal) :
    Inv n k { s with
      sending := fun i' signal' =>
        if i' = i ∧ signal' = signal then s.sending i' signal' - 1 else s.sending i' signal'
      table := fun d name' =>
        if d = n ∧ name' = name then s.table d name' + 1 else s.table d name'
      log := .heard signal i k :: s.log } := by
  -- each of the three tables hears one signal
  have hgathered {signal' : CommSignal} {name' : TableName} {rounds : ℕ}
      (hg : Gathered n (heardCount s.log · signal' k) rounds (s.table n name'))
      (hname' : Machine.tableOfSignal signal' = some name')
      (hinj : signal = signal' ↔ name' = name) :
      Gathered n (heardCount (.heard signal i k :: s.log) · signal' k) rounds
        (if True ∧ name' = name then s.table n name' + 1 else s.table n name') := by
    by_cases hsame : signal = signal'
    · rw [if_pos ⟨trivial, hinj.mp hsame⟩]
      refine hg.hear hi ?_ ?_
      · simp [hsame]
      · intro j hj
        simp [Ne.symm hj]
    · rw [if_neg fun hboth => hsame (hinj.mpr hboth.2)]
      refine hg.congr fun j _ => ?_
      simp [hsame]
  have hsignal : signal ≠ .doCopyH2D := by
    rintro rfl
    cases hname
  have hpeer : ∀ i' < n, i' ≠ n := fun i' hi' => Nat.ne_of_lt hi'
  constructor
  · exact h.stages
  · simpa using h.counts
  · simp only [gotCount_heard]
    refine hgathered h.reduce rfl ?_
    cases signal <;> cases hname <;> decide
  · simp only [gotCount_heard]
    refine hgathered h.broadcast rfl ?_
    cases signal <;> cases hname <;> decide
  · simp only [gotCount_heard]
    refine hgathered h.push rfl ?_
    cases signal <;> cases hname <;> decide
  · intro i' hi' op signal' hop
    have hold := h.sent i' hi' op signal' hop
    dsimp only
    rw [heardCount_heard, finishedCount_heard]
    by_cases hboth : i' = i ∧ signal' = signal
    · rw [if_pos hboth, if_pos ⟨hboth.2.symm, hboth.1.symm⟩]
      rw [hboth.1, hboth.2] at hold ⊢
      omega
    · rw [if_neg hboth, if_neg fun h => hboth ⟨h.2.symm, h.1.symm⟩]
      exact hold
  · intro i' hi' signal' hnone
    dsimp only
    have hold := h.unsent i' hi' signal' hnone
    rw [hold]
    split <;> rfl
  · simpa using h.called
  · intro i' hi'
    have hold := h.copied i' hi'
    dsimp only
    rw [heardCount_heard, if_neg fun hboth => hsignal hboth.1, gotCount_heard]
    exact hold
  · intro i' hi'
    have hold := h.copy i' hi'
    dsimp only
    rw [heardCount_heard, gotCount_heard, if_neg fun hboth => hpeer i' hi' hboth.1,
      if_neg fun hboth => hsignal hboth.1]
    exact hold
  · exact h.compressing
  · exact always_cons.mpr ⟨⟨fun _ he => (by cases he), fun _ _ he => (by cases he)⟩, h.inOrder⟩

theorem copy_step (h : s.Inv n k) {i : ℕ} (hi : i < n) (hcoming : 0 < s.coming i .doCopyH2D) :
    Inv n k { s with
      coming := fun i' signal =>
        if i' = i ∧ signal = .doCopyH2D then s.coming i' signal - 1 else s.coming i' signal
      table := fun d name => if d = i ∧ name = .copy then s.table d name + 1 else s.table d name
      log := .heard .doCopyH2D i k :: s.log } := by
  constructor
  · exact h.stages
  · simpa using h.counts
  · simpa using h.reduce
  · simpa using h.broadcast
  · simpa using h.push
  · intro i' hi' op signal hop
    have hold := h.sent i' hi' op signal hop
    have hne : signal ≠ .doCopyH2D := by
      rintro rfl
      cases op <;> cases hop
    dsimp only
    rw [heardCount_heard, if_neg fun hboth => hne hboth.1.symm, finishedCount_heard]
    exact hold
  · exact h.unsent
  · intro i' hi' op signal hcall
    have hold := h.called i' hi' op signal hcall
    have hne : signal ≠ .doCopyH2D := by
      rintro rfl
      cases hcall
    dsimp only
    rw [gotCount_heard, gotCount_heard, if_neg fun hboth => hne hboth.2]
    exact hold
  · intro i' hi'
    have hold := h.copied i' hi'
    dsimp only
    rw [heardCount_heard, gotCount_heard]
    by_cases hii : i' = i
    · subst hii
      simp only [and_self, if_true]
      omega
    · simp only [hii, Ne.symm hii, false_and, and_false, if_false]
      exact hold
  · intro i' hi'
    have hold := h.copy i' hi'
    dsimp only
    rw [heardCount_heard, gotCount_heard]
    by_cases hii : i' = i
    · subst hii
      simp only [and_self, if_true]
      omega
    · simp only [hii, Ne.symm hii, false_and, and_false, if_false]
      exact hold
  · exact h.compressing
  · exact always_cons.mpr ⟨⟨fun _ he => (by cases he), fun _ _ he => (by cases he)⟩, h.inOrder⟩

/--
**Every step of a key keeps what holds of it.**

One case for each kind of step: a round begins, a stage is taken or finished, a signal is sent,
heard or obeyed, and a count is restored.
-/
theorem step {s' : KeyState} (h : s.Inv n k) (hs : Step n k s s') : s'.Inv n k := by
  cases hs with
  | begin d stages hd hstages hidle => exact h.begin_step hstages hidle
  | take d op rest hd hposition hloop hready => exact h.take_step hd hposition hloop hready
  | call i op signal rest hi hcall hcoming hposition =>
      exact h.call_step hi hcall hcoming hposition
  | finish d op rest hd hposition hcompress => exact h.finish_step hd hposition hcompress
  | restore hcompressing => exact h.restore_step hcompressing
  | hear i signal name hi hname hsending => exact h.hear_step hi hname hsending
  | copy i hi hcoming => exact h.copy_step hi hcoming

end Inv

end KeyState

end DeepInc.Worker
