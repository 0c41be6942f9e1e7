/-
No key gets stuck.

A key waits when no loop has it and no signal about it is on its way.  If then all devices have
begun it equally often and one of them is not through, there is a device whose loop can take it
from its queue.

A device that is not the root waits for the root, to be called or to be told that it may copy.
If it cannot go on, the root has that stage before it.  The root waits for signals, one from
each of the other devices, and cannot go on when one of them is missing; then that device has
the stage of the signal before it.

So a circle of waiting would be one of the root and one other device, each waiting for a stage
the other has before it.  The stages of both come in one order, and in that order what the root
waits for is in front of what it has to take, and the same the other way round; so there is no
such circle.

The argument is about one key only.  That a loop is free to take it, and that there are credits,
is in `Enabled.lean`.
-/
import DeepInc.Proofs.Worker.KeyRounds

namespace DeepInc.Worker

namespace KeyState

variable {n k : ℕ} {s : KeyState}

/-- No loop has the key, and no signal about it is on its way. -/
structure Waiting (n : ℕ) (s : KeyState) : Prop where
  queued : ∀ d ≤ n, (s.position d).2 = false
  sending : ∀ i < n, ∀ signal, s.sending i signal = 0
  coming : ∀ i < n, ∀ signal, s.coming i signal = 0

/-- All devices have begun the key equally often. -/
def Level (n k : ℕ) (s : KeyState) : Prop :=
  ∀ d ≤ n, begunCount s.log d k = begunCount s.log n k

/-- The loop of the first stage can take the key. -/
def Takes (n : ℕ) (s : KeyState) (d : ℕ) (op : QueueType) : Prop :=
  (∃ rest, s.position d = (op :: rest, false)) ∧ (d = n ∨ op ≠ .reduce ∧ op ≠ .broadcast) ∧
    ∀ name, tableAt n d op = some name → s.table d name = readyAt n name

/-- The stage of the other devices whose signals the root waits for. -/
def gatheredAt : QueueType → Option QueueType
  | .reduce => some .coordinateReduce
  | .compress | .push => some .coordinatePush
  | .broadcast => some .coordinateBroadcast
  | _ => none

/-- What the root and another device wait for is not the other's turn. -/
theorem stages_not_both {root peer : List QueueType} (hroot : root <:+ rootStages ∨
    root <:+ compressedStages) (hpeer : peer <:+ peerStages) {op : QueueType}
    (hop : peer.head? = some op) (hcalled : op = .reduce ∨ op = .copyH2D ∨ op = .broadcast)
    (hgathered : ∀ first, root.head? = some first → ∀ sent, gatheredAt first = some sent →
      sent ∈ peer) (hmem : op ∈ root) : ∃ first, root.head? = some first ∧ gatheredAt first = none := by
  have htails : ∀ root ∈ rootStages.tails ++ compressedStages.tails, ∀ peer ∈ peerStages.tails,
      ∀ op ∈ [QueueType.reduce, .copyH2D, .broadcast], peer.head? = some op → op ∈ root →
      (∀ first ∈ root.head?, ∀ sent ∈ gatheredAt first, sent ∈ peer) →
      ∃ first ∈ root.head?, gatheredAt first = none := by decide
  have hin : root ∈ rootStages.tails ++ compressedStages.tails := by
    rw [List.mem_append, List.mem_tails, List.mem_tails]
    exact hroot
  obtain ⟨first, hfirst, hnone⟩ := htails root hin peer ((List.mem_tails _ _).mpr hpeer) op
    (by simpa using hcalled) hop hmem fun first hfirst sent hsent => hgathered first hfirst sent hsent
  exact ⟨first, hfirst, hnone⟩

namespace Inv

variable (h : s.Inv n k) (hwaiting : s.Waiting n) (hlevel : Level n k s)

include h hwaiting

/-- A stage that is left has not been taken this round. -/
theorem got_of_mem {d : ℕ} (hd : d ≤ n) {op : QueueType} (hop : op ∈ stagesFor n d)
    (hmem : op ∈ s.left d) : gotCount s.log d op k + 1 = begunCount s.log d k := by
  have hcounts := (h.counts d hd op hop).1
  have hawaits : awaits (s.position d) op = 1 :=
    if_pos ⟨hmem, fun hboth => by rw [hwaiting.queued d hd] at hboth; cases hboth.1⟩
  omega

omit hwaiting in
/-- A stage that is not left was taken. -/
theorem got_of_not_mem {d : ℕ} (hd : d ≤ n) {op : QueueType} (hop : op ∈ stagesFor n d)
    (hmem : op ∉ s.left d) : gotCount s.log d op k = begunCount s.log d k := by
  have hcounts := (h.counts d hd op hop).1
  have hawaits : awaits (s.position d) op = 0 := if_neg fun hboth => hmem hboth.1
  omega

include hlevel

/-- Another device that cannot go on waits for a stage the root has still to take. -/
theorem peer_takes {i : ℕ} (hi : i < n) {op : QueueType} {rest : List QueueType}
    (hposition : s.position i = (op :: rest, false)) : Takes n s i op ∨
      (op = .reduce ∨ op = .copyH2D ∨ op = .broadcast) ∧ op ∈ s.left n := by
  have hmem : op ∈ s.left i := by
    rw [left, hposition]
    exact List.mem_cons_self
  have hi' := Nat.le_of_lt hi
  have hlevel := hlevel i hi'
  have htable := tableAt_peer (Nat.ne_of_lt hi) op
  -- the root has taken no more rounds of a call than the device
  have hcall {signal : CommSignal} (hop : op ∈ peerStages ∧ op ∈ rootStages)
      (hcall : Machine.stageOfCall signal = some op) : op ∈ s.left n := by
    by_contra hnot
    have hcalled := h.called i hi op signal hcall
    have hgot := h.got_of_mem hwaiting hi' (by rw [stagesFor_peer hi]; exact hop.1) hmem
    have hroot := h.got_of_not_mem (Nat.le_refl n) (by rw [stagesFor_root]; exact hop.2) hnot
    have := hwaiting.coming i hi signal
    omega
  cases hop : op with
  | reduce =>
      subst hop
      exact .inr ⟨.inl rfl, hcall (by decide) (rfl : Machine.stageOfCall .doReduce = _)⟩
  | broadcast =>
      subst hop
      exact .inr ⟨.inr (.inr rfl), hcall (by decide) (rfl : Machine.stageOfCall .doBroadcast = _)⟩
  | copyH2D =>
      subst hop
      by_cases hnot : QueueType.copyH2D ∈ s.left n
      · exact .inr ⟨.inr (.inl rfl), hnot⟩
      · refine .inl ⟨⟨rest, hposition⟩, .inr (by decide), fun name hname => ?_⟩
        rw [htable, if_pos rfl] at hname
        obtain rfl := Option.some.inj hname
        have hcopied := h.copied i hi
        have hcopy := (h.copy i hi).2
        have hgot := h.got_of_mem hwaiting hi' (by rw [stagesFor_peer hi]; decide) hmem
        have hroot := h.got_of_not_mem (Nat.le_refl n) (by rw [stagesFor_root]; decide) hnot
        have := hwaiting.coming i hi .doCopyH2D
        show s.table i .copy = 1
        omega
  | coordinateReduce | copyD2H | pcieReduce | coordinatePush | compress | push | pull
  | decompress | coordinateBroadcast =>
      subst hop
      refine .inl ⟨⟨rest, hposition⟩, .inr (by decide), fun name hname => ?_⟩
      rw [htable, if_neg (by decide)] at hname
      cases hname

/-- A device whose signal is missing has still to finish the stage it is for. -/
theorem mem_of_missing {i : ℕ} (hi : i < n) {op : QueueType} {signal : CommSignal}
    (hop : op ∈ peerStages) (hready : readyOf op = some signal)
    (hmissing : heardCount s.log i signal k < begunCount s.log n k) : op ∈ s.left i := by
  by_contra hnot
  have hi' := Nat.le_of_lt hi
  have hsent := h.sent i hi op signal hready
  have hfinished := h.finished_of_not_mem hi' (by rw [stagesFor_peer hi]; exact hop) hnot
  have hlevel := hlevel i hi'
  have := hwaiting.sending i hi signal
  omega

/-- The root takes a stage all others have signalled for. -/
theorem root_takes_gathered {op sent : QueueType} {rest : List QueueType} {name : TableName}
    {signal : CommSignal} (hposition : s.position n = (op :: rest, false))
    (htable : tableAt n n op = some name) (hfull : readyAt n name = n)
    {rounds : ℕ} (hgathered : Gather.Gathered n (heardCount s.log · signal k) rounds (s.table n name))
    (hahead : ∀ j < n, heardCount s.log j signal k ≤ rounds + 1)
    (hrounds : rounds < begunCount s.log n k) (hsent : sent ∈ peerStages)
    (hready : readyOf sent = some signal) :
    Takes n s n op ∨ ∃ i < n, sent ∈ s.left i := by
  by_cases hcount : s.table n name = n
  · refine .inl ⟨⟨rest, hposition⟩, .inl rfl, fun name' hname => ?_⟩
    obtain rfl := Option.some.inj (htable.symm.trans hname)
    rw [hcount, hfull]
  · obtain ⟨i, hi, hmissing⟩ := hgathered.exists_missing hahead hcount
    exact .inr ⟨i, hi, h.mem_of_missing hwaiting hlevel hi hsent hready
      (Nat.lt_of_le_of_lt hmissing hrounds)⟩

/-- The root goes on, or it waits for a signal a device has still to send. -/
theorem root_takes {op : QueueType} {rest : List QueueType}
    (hposition : s.position n = (op :: rest, false)) :
    Takes n s n op ∨ ∃ sent, gatheredAt op = some sent ∧ ∃ i < n, sent ∈ s.left i := by
  have hleft : s.left n = op :: rest := by rw [left, hposition]
  have hmem : op ∈ s.left n := by
    rw [hleft]
    exact List.mem_cons_self
  have hn := Nat.le_refl n
  have htable := tableAt_root n op
  cases hop : op with
  | reduce =>
      subst hop
      have hgot := h.got_of_mem hwaiting hn (by rw [stagesFor_root]; decide) hmem
      refine (h.root_takes_gathered hwaiting hlevel hposition htable rfl h.reduce
        h.heard_ahead_reduce (by omega)
        (show QueueType.coordinateReduce ∈ peerStages by decide) rfl).imp_right ?_
      exact fun hmissing => ⟨_, rfl, hmissing⟩
  | broadcast =>
      subst hop
      have hgot := h.got_of_mem hwaiting hn (by rw [stagesFor_root]; decide) hmem
      refine (h.root_takes_gathered hwaiting hlevel hposition htable rfl h.broadcast
        h.heard_ahead_broadcast (by omega)
        (show QueueType.coordinateBroadcast ∈ peerStages by decide) rfl).imp_right ?_
      exact fun hmissing => ⟨_, rfl, hmissing⟩
  | push | compress =>
      subst hop
      have hpush := (h.root_left_of_push hposition (by simp)).1
      have hgot := h.got_of_mem hwaiting hn (by rw [stagesFor_root]; decide)
        (show QueueType.push ∈ s.left n by rw [hleft]; exact hpush)
      have hzero := h.compressing_eq_zero hposition
      refine (h.root_takes_gathered hwaiting hlevel hposition htable rfl h.push
        h.heard_ahead_push (by omega)
        (show QueueType.coordinatePush ∈ peerStages by decide) rfl).imp_right ?_
      exact fun hmissing => ⟨_, rfl, hmissing⟩
  | coordinateReduce | copyD2H | pcieReduce | coordinatePush | pull | decompress | copyH2D
  | coordinateBroadcast =>
      subst hop
      refine .inl ⟨⟨rest, hposition⟩, .inl rfl, fun name hname => ?_⟩
      rw [htable] at hname
      cases hname

/--
**A key that waits can be taken.** When all devices have begun it equally often and one of them
is not through, the loop of some device can take it.

If the root cannot, it waits for a signal of a device that has the stage of that signal still
before it.  If this device cannot go on either, it waits for the root at a stage before that
one, and the root would have taken it.
-/
theorem exists_takes (hleft : ∃ d ≤ n, s.left d ≠ []) : ∃ d ≤ n, ∃ op, Takes n s d op := by
  by_contra hnone
  push Not at hnone
  have hposition {d : ℕ} (hd : d ≤ n) {op : QueueType} {rest : List QueueType}
      (hlist : s.left d = op :: rest) : s.position d = (op :: rest, false) :=
    Prod.ext hlist (hwaiting.queued d hd)
  have hroot : s.left n <:+ rootStages ∨ s.left n <:+ compressedStages := by
    obtain ⟨stages, hstages, hsuffix⟩ := h.stages n (Nat.le_refl n)
    rcases hstages with rfl | ⟨-, rfl⟩
    · rw [stagesFor_root] at hsuffix
      exact .inl hsuffix
    · exact .inr hsuffix
  have hpeer {i : ℕ} (hi : i < n) : s.left i <:+ peerStages := by
    obtain ⟨stages, hstages, hsuffix⟩ := h.stages i (Nat.le_of_lt hi)
    rcases hstages with rfl | ⟨heq, -⟩
    · rwa [stagesFor_peer hi] at hsuffix
    · exact absurd heq (Nat.ne_of_lt hi)
  -- another device waits for a stage of the root
  have hstuck {i : ℕ} (hi : i < n) (hmem : s.left i ≠ []) : ∃ op, (s.left i).head? = some op ∧
      (op = .reduce ∨ op = .copyH2D ∨ op = .broadcast) ∧ op ∈ s.left n := by
    obtain ⟨op, rest, hlist⟩ := List.exists_cons_of_ne_nil hmem
    refine ⟨op, by rw [hlist]; rfl, ?_⟩
    exact (h.peer_takes hwaiting hlevel hi (hposition (Nat.le_of_lt hi) hlist)).resolve_left
      (hnone i (Nat.le_of_lt hi) op)
  cases hleftn : s.left n with
  | nil =>
      obtain ⟨d, hd, hne⟩ := hleft
      have hlt : d < n := Nat.lt_of_le_of_ne hd fun heq => hne (heq ▸ hleftn)
      obtain ⟨op, -, -, hmem⟩ := hstuck hlt hne
      rw [hleftn] at hmem
      cases hmem
  | cons first rest =>
      -- the root waits for a signal of a device
      obtain ⟨sent, hgathered, i, hi, hsent⟩ :=
        (h.root_takes hwaiting hlevel (hposition (Nat.le_refl n) hleftn)).resolve_left
          (hnone n (Nat.le_refl n) first)
      obtain ⟨op, hhead, hcalled, hmem⟩ := hstuck hi (List.ne_nil_of_mem hsent)
      have hfirst : (s.left n).head? = some first := by rw [hleftn]; rfl
      obtain ⟨first', hfirst', hfree⟩ := stages_not_both hroot (hpeer hi) hhead hcalled
        (fun f hf sent' hsent' => by
          obtain rfl := Option.some.inj (hfirst.symm.trans hf)
          obtain rfl := Option.some.inj (hgathered.symm.trans hsent')
          exact hsent) hmem
      obtain rfl := Option.some.inj (hfirst.symm.trans hfirst')
      rw [hgathered] at hfree
      cases hfree

end Inv

end KeyState

end DeepInc.Worker
