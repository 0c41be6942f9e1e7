/-
The phases before the rounds.

A worker begins a key with an init push, which tells the server the length of the tensor, and a
key with a compressor has a registration after it, which carries the hyper-parameters.  Only
then the rounds begin.

All three kinds of push are counted in one list, `updates->request`, and nothing in a request
says which of them the others in the list are.  That they do not mix is due to the workers, who
go on only when they are answered: each of the two phases is a barrier, nobody is answered
before everyone has asked, and then everyone is.

Who is counted can be read off the phases the workers are in.  The invariant of `Barriers.lean`
says so for every key: either nobody has begun, or some are in the init pushes and nobody
further, and so on through the rounds.  A step of one worker moves one worker, or all of them if
it is the last.

The engine threads do work for a key only when it is stored, and disturb none of this.  No mode
of the server makes a difference to it either, so that asynchronous servers are included.
-/
import DeepInc.Proofs.Server.Simulation

namespace DeepInc.Server

open Outcome Transition

variable {α κ : Type} {cfg : Config} {codec : Codec α κ}

/-! ### Push responses -/

/-- Whom a push response of `key` goes to. -/
def Event.ack (key : Key) : Event α → Option ℕ
  | pushResponse k w => if k = key then some w else none
  | _ => none

/-- The workers whose pushes of `key` were answered, in the order of the answers. -/
def acks (key : Key) (log : List (Event α)) : List ℕ := log.reverse.filterMap (Event.ack key)

theorem acks_append (key : Key) (es log : List (Event α)) :
    acks key (es.reverse ++ log) = acks key log ++ es.filterMap (Event.ack key) := by
  unfold acks
  rw [List.reverse_append, List.reverse_reverse, List.filterMap_append]

theorem acks_cons (key : Key) (e : Event α) (log : List (Event α)) :
    acks key (e :: log) = acks key log ++ (e.ack key).toList := by
  unfold acks
  rw [List.reverse_cons, List.filterMap_append]
  cases h : e.ack key <;> simp [h]

theorem ack_of_ne {key : Key} {e : Event α} (h : e.key ≠ key) : e.ack key = none := by
  cases e with
  | pushResponse k w => exact if_neg h
  | _ => rfl

theorem filterMap_ack_of_ne {key : Key} {es : List (Event α)} (h : ∀ e ∈ es, e.key ≠ key) :
    es.filterMap (Event.ack key) = [] :=
  List.filterMap_eq_nil_iff.mpr fun e he => ack_of_ne (h e he)

theorem filterMap_ack_pushResponses (key : Key) (ws : List ℕ) :
    (ws.map (Event.pushResponse (α := α) key)).filterMap (Event.ack key) = ws := by
  induction ws with
  | nil => rfl
  | cons w ws ih =>
      rw [List.map_cons, List.filterMap_cons]
      simp only [Event.ack, if_true, ih]

/-! ### What the server keeps

Most of what the handler and the engine do leaves the lists of requests, the stored buffers and
the compressors as they are.  `Calm` says so of a change of the state, and is kept by every
small operation, so that it holds of the large ones by putting them together.
-/

/-- A message points to the stored buffer of its own key. -/
def EngineMessage.Placed (m : EngineMessage α) : Prop :=
  m.dst = some (.stored m.key) ∧ (m.ops = .allRecv → m.src = some (.stored m.key))

/-- There is work only for stored keys, and no pointer to another key. -/
structure State.Tidy (s : State α κ) : Prop where
  placed : ∀ i, ∀ m ∈ s.waiting i, m.Placed
  stored : ∀ i, ∀ m ∈ s.waiting i, (s.store m.key).tensor.isSome = true
  merged : ∀ key p, (s.updateBuf key).merged.tensor = some p → OwnPtr key p

/-- The stored buffer of `key` and its compressor stay. -/
structure Keeps (key : Key) (s s' : State α κ) : Prop where
  stored : (s'.store key).tensor.isSome = (s.store key).tensor.isSome
  len : (s'.store key).len = (s.store key).len
  dtype : (s'.store key).dtype = (s.store key).dtype
  compressor : (s'.compressorMap key).isSome = (s.compressorMap key).isSome

/-- Nothing is counted, allocated or made, and there is new work only for the given keys. -/
structure Calm (p : Key → Prop) (s s' : State α κ) : Prop where
  tidy : s'.Tidy
  keeps : ∀ k, Keeps k s s'
  request : ∀ k, (s'.updateBuf k).request = (s.updateBuf k).request
  waiting : ∀ i, ∀ m ∈ s'.waiting i, m ∈ s.waiting i ∨ p m.key
  allocated : s'.allocated = s.allocated

section Calm

variable {p : Key → Prop} {s s' s'' : State α κ}

theorem Keeps.refl (key : Key) (s : State α κ) : Keeps key s s := ⟨rfl, rfl, rfl, rfl⟩

theorem Keeps.trans {key : Key} (h : Keeps key s s') (h' : Keeps key s' s'') : Keeps key s s'' :=
  ⟨h'.stored.trans h.stored, h'.len.trans h.len, h'.dtype.trans h.dtype,
    h'.compressor.trans h.compressor⟩

namespace Calm

theorem refl (h : s.Tidy) : Calm p s s :=
  ⟨h, fun k => .refl k s, fun _ => rfl, fun _ _ hm => .inl hm, rfl⟩

theorem trans (h : Calm p s s') (h' : Calm p s' s'') : Calm p s s'' := by
  refine ⟨h'.tidy, fun k => (h.keeps k).trans (h'.keeps k), fun k => (h'.request k).trans (h.request k),
    fun i m hm => ?_, h'.allocated.trans h.allocated⟩
  rcases h'.waiting i m hm with hm | hp
  · exact h.waiting i m hm
  · exact .inr hp

theorem mono {q : Key → Prop} (h : Calm p s s') (hpq : ∀ k, p k → q k) : Calm q s s' :=
  ⟨h.tidy, h.keeps, h.request, fun i m hm => (h.waiting i m hm).imp_right (hpq _), h.allocated⟩

/-- A change of the thread tables, the window tables or the time. -/
theorem of_eq (h : s.Tidy) (hstore : s'.store = s.store) (hcomp : s'.compressorMap = s.compressorMap)
    (hupdate : s'.updateBuf = s.updateBuf) (hwaiting : ∀ i, ∀ m ∈ s'.waiting i, m ∈ s.waiting i)
    (hallocated : s'.allocated = s.allocated) : Calm p s s' := by
  refine ⟨⟨fun i m hm => h.placed i m (hwaiting i m hm), fun i m hm => ?_,
    fun key p hp => h.merged key p ?_⟩, fun k => ⟨?_, ?_, ?_, ?_⟩, fun k => ?_,
    fun i m hm => .inl (hwaiting i m hm), hallocated⟩
  · rw [hstore]
    exact h.stored i m (hwaiting i m hm)
  · rwa [hupdate] at hp
  · rw [hstore]
  · rw [hstore]
  · rw [hstore]
  · rw [hcomp]
  · rw [hupdate]

theorem setMerged (h : s.Tidy) {key : Key} {merged : MergedArray α}
    (hown : ∀ p, merged.tensor = some p → OwnPtr key p) : Calm p s (s.setMerged key merged) := by
  refine ⟨⟨h.placed, h.stored, fun k q hq => ?_⟩, fun _ => ⟨rfl, rfl, rfl, rfl⟩, fun k => ?_,
    fun _ _ hm => .inl hm, rfl⟩
  · by_cases hk : k = key
    · subst hk
      exact hown q (by simpa [State.setMerged] using hq)
    · exact h.merged k q (by simpa [State.setMerged, hk] using hq)
  · by_cases hk : k = key
    · subst hk
      simp [State.setMerged]
    · simp [State.setMerged, hk]

theorem setCompressor (h : s.Tidy) {key : Key} (hsome : (s.compressorMap key).isSome = true)
    (c : Compressor α κ) : Calm p s (s.setCompressor key c) := by
  refine ⟨⟨h.placed, h.stored, h.merged⟩, fun k => ⟨rfl, rfl, rfl, ?_⟩, fun _ => rfl,
    fun _ _ hm => .inl hm, rfl⟩
  by_cases hk : k = key
  · subst hk
    simp [State.setCompressor, hsome]
  · simp [State.setCompressor, hk]

theorem write (h : s.Tidy) {q : Ptr α} (hq : ∀ k, q = .stored k → (s.store k).tensor.isSome = true)
    (m : Mem α) : Calm p s (s.write q m) := by
  cases q with
  | vals data => exact .refl h
  | stored key =>
      have hkeeps : ∀ k, Keeps k s (s.write (.stored key) m) := by
        intro k
        by_cases hk : k = key
        · subst hk
          exact ⟨by simp [State.write, hq k rfl], by simp [State.write], by simp [State.write], rfl⟩
        · exact ⟨by simp [State.write, hk], by simp [State.write, hk], by simp [State.write, hk], rfl⟩
      exact ⟨⟨h.placed, fun i m' hm' => (hkeeps m'.key).stored.trans (h.stored i m' hm'), h.merged⟩,
        hkeeps, fun _ => rfl, fun _ _ hm => .inl hm, rfl⟩
  | buf key =>
      refine ⟨⟨h.placed, h.stored, h.merged⟩, fun k => ⟨rfl, rfl, rfl, ?_⟩, fun _ => rfl,
        fun _ _ hm => .inl hm, rfl⟩
      by_cases hk : k = key
      · subst hk
        simp [State.write]
      · simp [State.write, hk]

theorem setWindow (h : s.Tidy) (t : ℕ) (key : Key) (w : Window) : Calm p s (s.setWindow t key w) :=
  of_eq h rfl rfl rfl (fun _ _ hm => hm) rfl

theorem pushMessage (h : s.Tidy) (tid : ℕ) {m : EngineMessage α} (hm : m.Placed)
    (hstored : (s.store m.key).tensor.isSome = true) : Calm (· = m.key) s (s.pushMessage tid m) := by
  have hwaiting : ∀ i, ∀ m' ∈ (s.pushMessage tid m).waiting i, m' ∈ s.waiting i ∨ m' = m := by
    intro i m' hm'
    by_cases hi : i = tid
    · subst hi
      rcases List.mem_append.mp ((s.waiting_pushMessage_self i m).subset hm') with hold | hnew
      · exact .inl hold
      · exact .inr (List.mem_singleton.mp hnew)
    · rw [State.waiting_pushMessage_ne s hi] at hm'
      exact .inl hm'
  refine ⟨⟨fun i m' hm' => ?_, fun i m' hm' => ?_, h.merged⟩, fun _ => ⟨rfl, rfl, rfl, rfl⟩,
    fun _ => rfl, fun i m' hm' => ?_, rfl⟩
  · rcases hwaiting i m' hm' with hold | rfl
    · exact h.placed i m' hold
    · exact hm
  · rcases hwaiting i m' hm' with hold | rfl
    · exact h.stored i m' hold
    · exact hstored
  · exact (hwaiting i m' hm').imp_right fun heq => by rw [heq]

theorem clearCounter (h : s.Tidy) (tid : ℕ) (key : Key) : Calm p s { s with
    engineQueues := s.engineQueues.set tid ((s.engineQueues.get tid).clearCounter key) } := by
  refine of_eq h rfl rfl rfl (fun i m hm => ?_) rfl
  by_cases hi : i = tid
  · subst hi
    simpa [State.waiting] using hm
  · simpa [State.waiting, hi] using hm

theorem pop (h : s.Tidy) (i : ℕ) : Calm p s (s.pop i) := by
  have hwaiting : ∀ j, ∀ m ∈ (s.pop i).waiting j, m ∈ s.waiting j :=
    fun j m hm => (s.waiting_pop i j).subset hm
  rcases s.pop_cases i with heq | ⟨m, q, -, -, heq⟩
  · rw [heq]
    exact .refl h
  · rw [heq] at hwaiting ⊢
    exact of_eq h rfl rfl rfl hwaiting rfl

theorem dropHand (h : s.Tidy) (i : ℕ) :
    Calm p s { s with hand := Function.update s.hand i none } := by
  refine of_eq h rfl rfl rfl (fun j m hm => ?_) rfl
  by_cases hj : j = i
  · subst hj
    simp only [State.waiting, Function.update_self, Option.toList_none, List.nil_append] at hm
    exact List.mem_append_right _ hm
  · simpa [State.waiting, hj] using hm

end Calm

end Calm

/-! ### The engine and the rounds -/

namespace State

variable {s : State α κ} {key : Key}

theorem getThreadID_calm (h : s.Tidy) (key : Key) (len : ℕ) :
    Ensures (s.getThreadID cfg key len) (fun r => Calm (fun _ => False) s r.2) fun _ => True := by
  refine (getThreadID_spec cfg s key len).mono ?_ fun _ _ => trivial
  rintro ⟨t, _⟩ ⟨_, _, rfl⟩
  exact .of_eq h rfl rfl rfl (fun _ _ hm => hm) rfl

theorem enqueue_calm (h : s.Tidy) (tid : ℕ) {m : EngineMessage α} (hm : m.Placed)
    (hstored : (s.store m.key).tensor.isSome = true) :
    Ensures (s.enqueue tid m) (fun s' => Calm (· = m.key) s s') fun _ => True := by
  unfold enqueue
  exact Ensures.bind (ensures_inRange fun _ => trivial)
    fun _ _ => .ok (.pushMessage h tid hm hstored)

variable [Zero α]

theorem sendPullResponse_key (s : State α κ) (key : Key) (req : KVMeta) :
    Ensures (s.sendPullResponse key req) (fun a => a.key = key) fun _ => True := by
  unfold sendPullResponse
  split
  · exact .error trivial
  · exact .ok rfl

theorem pull_calm (h : s.Tidy) (key : Key) (req : KVMeta) :
    Ensures (s.pull cfg key req) (fun r => Calm (fun _ => False) s r.1 ∧
      ∀ e ∈ r.2, e.key = key ∧ ∀ k, e.ack k = none) fun _ => True := by
  have hanswer : ∀ {a : Response α}, a.key = key →
      ∀ e ∈ ([.pullResponse a] : List (Event α)), e.key = key ∧ ∀ k, e.ack k = none := by
    intro a ha e he
    obtain rfl := List.mem_singleton.mp he
    exact ⟨ha, fun _ => rfl⟩
  unfold pull
  refine Ensures.bind (ensures_check fun _ => trivial) fun _ _ => ?_
  split
  · exact Ensures.bind (s.sendPullResponse_key key req) fun a ha => .ok ⟨.refl h, hanswer ha⟩
  · refine Ensures.bind (getThreadID_calm h key 0) fun ⟨t, s₁⟩ h₁ => ?_
    refine Ensures.bind (Ensures.any _) fun _ _ => ?_
    simp only
    split
    · refine Ensures.bind (s₁.sendPullResponse_key key req) fun a ha => ?_
      refine Ensures.bind (Ensures.any _) fun _ _ => ?_
      exact .ok ⟨Calm.trans h₁ (.setWindow h₁.tidy _ _ _), hanswer ha⟩
    · refine Ensures.bind (Ensures.any _) fun _ _ => ?_
      exact .ok ⟨Calm.trans h₁ (.setWindow h₁.tidy _ _ _), by simp⟩

/-- Around the compressor of a key that is stored. -/
theorem convert_calm (h : s.Tidy) (codec : Codec α κ) {m : EngineMessage α}
    (hstored : (s.store m.key).tensor.isSome = true) {src : Ptr α}
    (hsrc : m.ops = .allRecv → src = .stored m.key) :
    Ensures (s.convert codec m src) (fun r => Calm (fun _ => False) s r.1 ∧
      ∀ e ∈ r.2.2, e.key = m.key ∧ ∀ k, e.ack k = none) fun _ => True := by
  have hpublished : ∀ (content : Mem α) (len : ℕ),
      ∀ e ∈ ([.published m.key content len] : List (Event α)), e.key = m.key ∧ ∀ k, e.ack k = none := by
    intro content len e he
    obtain rfl := List.mem_singleton.mp he
    exact ⟨rfl, fun _ => rfl⟩
  unfold convert
  split
  · rename_i c hc
    have hsome : (s.compressorMap m.key).isSome = true := by rw [hc]; rfl
    split
    · rename_i hops
      obtain rfl := hsrc hops
      refine .ok ⟨?_, hpublished _ _⟩
      have hset := Calm.setCompressor (p := fun _ => False) h hsome
        (codec.compress c (s.read (.stored m.key)) m.len m.type.dtype).1
      have hwrite := hset.trans (Calm.write hset.tidy (q := .stored m.key) (fun k hk => by
        obtain rfl := Ptr.stored.inj hk
        exact hstored) (codec.compress c (s.read (.stored m.key)) m.len m.type.dtype).2.1)
      exact hwrite.trans (.setMerged hwrite.tidy fun q hq => .inr (Option.some.inj hq).symm)
    · split
      · exact .error trivial
      · refine Ensures.bind (ensures_check fun _ => trivial) fun _ _ => ?_
        exact .ok ⟨.setCompressor h hsome _, by simp⟩
  · split
    · rename_i hops
      obtain rfl := hsrc hops
      exact .ok ⟨.setMerged h fun q hq => .inl (Option.some.inj hq).symm, hpublished _ _⟩
    · exact .ok ⟨.refl h, by simp⟩

omit [Zero α] in
theorem drain_key (numWorkers : ℕ) {send : KVMeta → Except Fault (Response α)}
    (hsend : ∀ req, Ensures (send req) (fun a => a.key = key) fun _ => True) (w : Window)
    (reqs : List KVMeta) :
    Ensures (drain numWorkers send w reqs) (fun r => ∀ a ∈ r.2, a.key = key) fun _ => True := by
  induction reqs generalizing w with
  | nil => exact .ok (by simp)
  | cons req rest ih =>
      unfold drain
      split
      · refine Ensures.bind (hsend req) fun a ha => ?_
        simp only
        split
        · exact .ok (by simpa using ha)
        · refine Ensures.bind (ih _) fun r hr => .ok fun b hb => ?_
          rcases List.mem_cons.mp hb with rfl | hb
          · exact ha
          · exact hr b hb
      · simp only
        split
        · exact .ok (by simp)
        · exact ih _

theorem openWindow_calm (h : s.Tidy) (cfg : Config) (i : ℕ) (key : Key) :
    Ensures (s.openWindow cfg i key) (fun r => Calm (fun _ => False) s r.1 ∧
      ∀ e ∈ r.2, e.key = key ∧ ∀ k, e.ack k = none) fun _ => True := by
  unfold openWindow
  refine Ensures.bind (Ensures.any _) fun _ _ => ?_
  refine Ensures.bind (drain_key cfg.numWorkers (s.sendPullResponse_key key) _ _) fun r hr => ?_
  refine .ok ⟨.setWindow h _ _ _, fun e he => ?_⟩
  obtain ⟨a, ha, rfl⟩ := List.mem_map.mp he
  exact ⟨hr a ha, fun _ => rfl⟩

variable [Add α]

/-- An engine thread disturbs no phase of any key. -/
theorem execute_calm (h : s.Tidy) (codec : Codec α κ) (i : ℕ) :
    Ensures (s.execute cfg codec i) (fun r => Calm (fun _ => False) s r.1 ∧
      ∀ e ∈ r.2, (∃ m ∈ s.waiting i, e.key = m.key) ∧ ∀ k, e.ack k = none) fun _ => True := by
  unfold execute
  cases hhand : s.hand i with
  | none => exact .ok ⟨.refl h, by simp⟩
  | some m =>
      have hm : m ∈ s.waiting i := by simp [waiting, hhand]
      have hstored := h.stored i m hm
      obtain ⟨hdst, hsrc⟩ := h.placed i m hm
      simp only
      split
      · exact .ok ⟨.refl h, by simp⟩
      · rw [hdst]
        have hdrop : Calm (fun _ => False) s { s with hand := Function.update s.hand i none } :=
          .dropHand h i
        cases hs : m.src with
        | none => exact .error trivial
        | some src =>
            simp only
            refine Ensures.bind (convert_calm hdrop.tidy codec (m := m) (by exact hstored)
              fun hops => Option.some.inj (hs.symm.trans (hsrc hops))) fun r hr => ?_
            obtain ⟨s₁, src₁, es⟩ := r
            obtain ⟨h₁, hes⟩ := hr
            have hcalm : Calm (fun _ => False) s s₁ := hdrop.trans h₁
            have hevents : ∀ e ∈ es, (∃ m ∈ s.waiting i, e.key = m.key) ∧ ∀ k, e.ack k = none :=
              fun e he => ⟨⟨m, hm, (hes e he).1⟩, (hes e he).2⟩
            have hwrite : ∀ data, Calm (fun _ => False) s (s₁.write (.stored m.key) data) := by
              intro data
              refine hcalm.trans (.write hcalm.tidy (fun k hk => ?_) data)
              obtain rfl := Ptr.stored.inj hk
              exact (hcalm.keeps m.key).stored.trans hstored
            simp only
            split
            · exact .ok ⟨hwrite _, hevents⟩
            · exact .ok ⟨hwrite _, hevents⟩
            · refine Ensures.bind (openWindow_calm hcalm.tidy cfg i m.key) fun r hr => ?_
              refine .ok ⟨hcalm.trans hr.1, fun e he => ?_⟩
              rcases List.mem_append.mp he with he | he
              · exact hevents e he
              · exact ⟨⟨m, hm, (hr.2 e he).1⟩, (hr.2 e he).2⟩
            · exact .ok ⟨hcalm, hevents⟩

/-! ### A push of a round -/

theorem accumulate_calm (h : s.Tidy) (tid : ℕ) (hstored : (s.store key).tensor.isSome = true)
    (req : KVMeta) (data : KVPairs α) (len : ℕ) :
    Ensures (s.accumulate cfg tid key req data len) (fun r => Calm (· = key) s r.1 ∧
      ∀ e ∈ r.2, e.key = key ∧ ∀ k, e.ack k = none) fun _ => True := by
  have hown : ∀ k, Ptr.stored (α := α) key = .stored k → (s.store k).tensor.isSome = true := by
    intro k hk
    obtain rfl := Ptr.stored.inj hk
    exact hstored
  have hissued : ∀ ops, ∀ e ∈ ([.issued key ops] : List (Event α)),
      e.key = key ∧ ∀ k, e.ack k = none := by
    intro ops e he
    obtain rfl := List.mem_singleton.mp he
    exact ⟨rfl, fun _ => rfl⟩
  unfold accumulate
  split
  · split
    · exact Ensures.bind (enqueue_calm h tid (m := s.dataMessage key req data .copyFirst)
        ⟨rfl, by simp [dataMessage]⟩ hstored) fun _ h' => .ok ⟨h', hissued _⟩
    · exact .ok ⟨.write h hown _, by simp⟩
  · refine Ensures.bind (ensures_check fun _ => trivial) fun _ _ => ?_
    split
    · simp only
      split
      · exact .error trivial
      · rename_i q hq
        refine .ok ⟨.write h (fun k hk => ?_) _, by simp⟩
        rcases h.merged key q hq with rfl | rfl
        · exact hown k hk
        · cases hk
    · exact Ensures.bind (enqueue_calm h tid (m := s.dataMessage key req data .sumRecv)
        ⟨rfl, by simp [dataMessage]⟩ hstored) fun _ h' => .ok ⟨h', hissued _⟩

omit [Add α] in
theorem completeRound_calm (h : s.Tidy) (tid : ℕ) (hstored : (s.store key).tensor.isSome = true)
    (req : KVMeta) (len : ℕ) :
    Ensures (s.completeRound cfg tid key req len) (fun r => Calm (· = key) s r.1 ∧
      ∀ e ∈ r.2, e.key = key ∧ ∀ k, e.ack k = none) fun _ => True := by
  unfold completeRound
  split
  · split
    · exact .error trivial
    · refine .ok ⟨Calm.write h (q := .stored key) (fun k hk => ?_) _, by simp⟩
      obtain rfl := Ptr.stored.inj hk
      exact hstored
  · refine Ensures.bind (enqueue_calm h tid (m := s.allRecvMessage key req) ⟨rfl, fun _ => rfl⟩
      hstored) fun s₁ h₁ => .ok ⟨Calm.trans h₁ (.clearCounter h₁.tidy tid key), fun e he => ?_⟩
    obtain rfl := List.mem_singleton.mp he
    exact ⟨rfl, fun _ => rfl⟩

/-- A push is counted with other pushes of its round, and answered at once. -/
theorem push_counts (h : s.Tidy) (hstored : (s.store key).tensor.isSome = true) (req : KVMeta)
    (data : KVPairs α) (len : ℕ) :
    Ensures (s.push cfg key req data len) (fun r => ∃ s₁ request, Calm (· = key) s s₁ ∧
      r.1 = s₁.setRequest key request ∧ (∀ q ∈ request, q ∈ (s.updateBuf key).request ∨ q = req) ∧
      r.2.filterMap (Event.ack key) = [req.sender] ∧ ∀ e ∈ r.2, e.key = key) fun _ => True := by
  unfold push
  refine Ensures.bind (getThreadID_calm h key len) fun ⟨tid, s₁⟩ h₁ => ?_
  have h₁' : Calm (· = key) s s₁ := Calm.mono h₁ fun _ hf => hf.elim
  refine Ensures.bind (accumulate_calm h₁.tidy tid ((h₁.keeps key).stored.trans hstored) req data len)
    fun ⟨s₂, issued⟩ ⟨h₂, hissued⟩ => ?_
  have h : Calm (· = key) s s₂ := h₁'.trans h₂
  have hreq : (s₂.updateBuf key).request = (s.updateBuf key).request := h.request key
  have hcounted : ∀ q ∈ (s₂.updateBuf key).request ++ [req],
      q ∈ (s.updateBuf key).request ∨ q = req := by
    intro q hq
    rw [hreq] at hq
    simpa using hq
  have hsent : ∀ es : List (Event α), (∀ e ∈ es, e.key = key ∧ ∀ k, e.ack k = none) →
      ((issued ++ [Event.pushResponse key req.sender]) ++ es).filterMap (Event.ack key) =
          [req.sender] ∧
        ∀ e ∈ (issued ++ [Event.pushResponse key req.sender]) ++ es, e.key = key := by
    intro es hes
    have hnone : ∀ es : List (Event α), (∀ e ∈ es, e.key = key ∧ ∀ k, e.ack k = none) →
        es.filterMap (Event.ack key) = [] :=
      fun es hes => List.filterMap_eq_nil_iff.mpr fun e he => (hes e he).2 key
    constructor
    · rw [List.filterMap_append, List.filterMap_append, hnone issued hissued, hnone es hes]
      simp [Event.ack]
    · intro e he
      simp only [List.mem_append, List.mem_singleton] at he
      rcases he with (he | rfl) | he
      · exact (hissued e he).1
      · rfl
      · exact (hes e he).1
  simp only
  split
  · refine Ensures.bind (completeRound_calm h.tidy tid ((h.keeps key).stored.trans hstored) req len)
      fun ⟨s₃, completed⟩ ⟨h₃, hcompleted⟩ => ?_
    exact .ok ⟨s₃, [], h.trans h₃, rfl, by simp, hsent completed hcompleted⟩
  · have hlast := hsent [] (by simp)
    rw [List.append_nil] at hlast
    split
    · exact .ok ⟨s₂, [], h, rfl, by simp, hlast⟩
    · exact .ok ⟨s₂, _, h, rfl, hcounted, hlast⟩

end State

/-! ### The requests before the rounds

For both kinds there are two cases: a request joins those who wait, or it is the last and
releases them.  What else happens, a buffer that is allocated or a compressor that is made,
happens to the key of the request.
-/

/-- Other keys see nothing of a request for `key`. -/
structure Only (key : Key) (s s' : State α κ) : Prop where
  tidy : s'.Tidy
  keeps : ∀ k, k ≠ key → Keeps k s s'
  request : ∀ k, k ≠ key → (s'.updateBuf k).request = (s.updateBuf k).request
  waiting : ∀ i, ∀ m ∈ s'.waiting i, m ∈ s.waiting i ∨ m.key = key

section Only

variable {key : Key} {s s' : State α κ}

theorem Calm.only (h : Calm (· = key) s s') : Only key s s' :=
  ⟨h.tidy, fun k _ => h.keeps k, fun k _ => h.request k, h.waiting⟩

theorem Only.setRequest (h : Only key s s') (request : List KVMeta) :
    Only key s (s'.setRequest key request) := by
  refine ⟨⟨h.tidy.placed, h.tidy.stored, fun k q hq => h.tidy.merged k q ?_⟩, fun k hk => ?_,
    fun k hk => ?_, h.waiting⟩
  · by_cases hk : k = key
    · subst hk
      simpa [State.setRequest] using hq
    · simpa [State.setRequest, hk] using hq
  · exact ⟨(h.keeps k hk).stored, (h.keeps k hk).len, (h.keeps k hk).dtype, (h.keeps k hk).compressor⟩
  · rw [← h.request k hk]
    simp [State.setRequest, hk]

@[simp] theorem request_setRequest (s : State α κ) (key : Key) (request : List KVMeta) :
    ((s.setRequest key request).updateBuf key).request = request := by
  simp [State.setRequest]

/-- A request joins the others, or releases them. -/
theorem collectInit_cases (s : State α κ) (cfg : Config) (key : Key) (req : KVMeta) :
    ((s.updateBuf key).request.length + 1 < cfg.numWorkers ∧ s.collectInit cfg key req =
      (s.setRequest key ((s.updateBuf key).request ++ [req]), [])) ∨
    (cfg.numWorkers ≤ (s.updateBuf key).request.length + 1 ∧ s.collectInit cfg key req =
      (s.setRequest key [],
        ((s.updateBuf key).request ++ [req]).map fun r => .pushResponse key r.sender)) := by
  unfold State.collectInit
  simp only [List.length_append, List.length_singleton]
  by_cases hlen : (s.updateBuf key).request.length + 1 < cfg.numWorkers
  · exact .inl ⟨hlen, if_pos hlen⟩
  · exact .inr ⟨Nat.le_of_not_lt hlen, if_neg hlen⟩

namespace State

/-- A registration makes the compressor of the key, unless there is one. -/
theorem register_counts (h : s.Tidy) (cfg : Config) (codec : Codec α κ) (key : Key) (req : KVMeta)
    (data : KVPairs α) (len : ℕ) (hlens : data.lens = [len]) :
    Ensures (s.registerCompressor cfg codec key req data) (fun r => ∃ c s₁,
      r = s₁.collectInit cfg key req ∧ Only key s s₁ ∧ s₁.compressorMap key = some c ∧
      (s.compressorMap key = some c ∨ s.compressorMap key = none ∧
        codec.create data.vals len (align (s.store key).len (s.store key).dtype)
          (s.store key).dtype = some c) ∧
      s₁.updateBuf = s.updateBuf ∧ s₁.store = s.store ∧ s₁.allocated = s.allocated ∧
      ∀ i, s₁.waiting i = s.waiting i) fun _ => True := by
  unfold registerCompressor
  cases hc : s.compressorMap key with
  | some c =>
      exact .ok ⟨c, s, rfl, (Calm.refl h).only, hc, .inl rfl, rfl, rfl, rfl, fun _ => rfl⟩
  | none =>
      rw [hlens]
      simp only
      split
      · exact .error trivial
      · rename_i c hcreate
        refine .ok ⟨c, s.setCompressor key c, rfl, ⟨⟨h.placed, h.stored, h.merged⟩, fun k hk => ?_,
          fun _ _ => rfl, fun _ _ hm => .inl hm⟩, by simp [setCompressor], .inr ⟨trivial, hcreate⟩, rfl,
          rfl, rfl, fun _ => rfl⟩
        exact ⟨rfl, rfl, rfl, by simp [setCompressor, hk]⟩

variable [Zero α]

theorem initStore_eq (s : State α κ) (key : Key) (data : KVPairs α) (len : ℕ) (dtype : DataType) :
    Ensures (s.initStore key data len dtype) (fun s' => s' = { s with
      allocated := s.allocated + roundUp (align len dtype) pageSize
      store := Function.update s.store key
        { tensor := some (CpuReducer.copy (fun _ => 0) data.vals len dtype), len := len,
          dtype := dtype } }) fun _ => True := by
  unfold initStore pageAlignedMalloc
  refine Ensures.bind (Q := fun s₁ => s₁ = { s with
    allocated := s.allocated + roundUp (align len dtype) pageSize }) ?_ fun s₁ hs₁ => ?_
  · exact Ensures.bind (ensures_check fun _ => trivial) fun _ _ => .ok rfl
  · subst hs₁
    exact .ok rfl

/-- The last init push of a key allocates its stored buffer. -/
theorem initPush_counts (h : s.Tidy) (cfg : Config) (key : Key) (req : KVMeta) (data : KVPairs α)
    (len : ℕ) :
    Ensures (s.initPush cfg key req data len) (fun r => ∃ s₁,
      r = s₁.collectInit cfg key req ∧ Only key s s₁ ∧ s₁.compressorMap = s.compressorMap ∧
      (s₁.updateBuf key).request = (s.updateBuf key).request ∧
      (∀ i, s₁.waiting i = s.waiting i) ∧
      ((s.updateBuf key).request.length + 1 < cfg.numWorkers → s₁.store = s.store ∧
        s₁.allocated = s.allocated) ∧
      (cfg.numWorkers ≤ (s.updateBuf key).request.length + 1 →
        (s₁.store key).tensor.isSome = true ∧ (s₁.store key).len = len ∧
        (s₁.store key).dtype = req.type.dtype ∧
        s₁.allocated = s.allocated + roundUp (align len req.type.dtype) pageSize)) fun _ => True := by
  -- what is noted of the merged buffer points to nothing new
  have hnote : ∃ s₀, s.noteMerged cfg key len req.type.dtype = s₀ ∧
      Calm (fun _ => False) s s₀ ∧ s₀.store = s.store ∧ s₀.compressorMap = s.compressorMap ∧
      ∀ i, s₀.waiting i = s.waiting i := by
    refine ⟨_, rfl, ?_⟩
    unfold noteMerged
    split
    · exact ⟨.setMerged h fun q hq => h.merged key q hq, rfl, rfl, fun _ => rfl⟩
    · exact ⟨.refl h, rfl, rfl, fun _ => rfl⟩
  obtain ⟨s₀, hs₀, hcalm, hstore, hcomp, hwaiting⟩ := hnote
  have honly : Only key s s₀ := (hcalm.mono fun _ hf => hf.elim).only
  unfold initPush
  rw [hs₀]
  split
  · rename_i hlen
    exact .ok ⟨s₀, rfl, honly, hcomp, hcalm.request key, hwaiting, fun _ => ⟨hstore, hcalm.allocated⟩,
      fun hfull => absurd hlen (Nat.not_lt.mpr hfull)⟩
  · rename_i hlen
    refine Ensures.bind (s₀.initStore_eq key data len req.type.dtype) fun s₁ hs₁ => ?_
    subst hs₁
    refine .ok ⟨_, rfl, ⟨⟨honly.tidy.placed, fun i m hm => ?_, honly.tidy.merged⟩, fun k hk => ?_,
      honly.request, honly.waiting⟩, hcomp, hcalm.request key, hwaiting,
      fun hjoin => absurd hjoin hlen, fun _ => ⟨by simp, by simp, by simp, ?_⟩⟩
    · by_cases hk : m.key = key
      · simp [hk]
      · simpa [hk] using honly.tidy.stored i m hm
    · have hold := honly.keeps k hk
      exact ⟨by simpa [hk] using hold.stored, by simpa [hk] using hold.len,
        by simpa [hk] using hold.dtype, hold.compressor⟩
    · rw [hcalm.allocated]

end State

end Only

end DeepInc.Server
