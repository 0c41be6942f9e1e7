/-
What the last entries of a profile were recorded for.

With tracing on, a process records when a round of a tensor begins and when each of its stages
does, and writes the durations into these entries when they are over.  There is no link between
an entry and what it is for: a duration is written into the last entry of its list.

A stage is recorded when its task is taken and read when the task has finished it; between the
two no other entry of the same key and stage can come, since there is one task of the key.  A
round is recorded when its tensor is enqueued and read after it has called back.  By then the
next round may have been enqueued, and its entry is the last.

The flag of the profile may be switched in between as well, by a round before.  A round that
began without the flag has no entry, and its duration goes to another one, or there is none to
write to.

So the last entry is the right one as long as a tensor is not enqueued, and its flag not
switched on, while the entry of another round is still to be read.
-/
import DeepInc.Proofs.Worker.Callback

namespace DeepInc.Worker

open Transition Outcome

/-- The last entry was recorded for this. -/
def LastIs (l : List CommTime) (r : Recorded) : Prop := l.getLast?.map (·.recorded) = some r

/-! ### What is written into a profile -/

namespace Profile

variable {p p' : Profile} {now : ℤ}

theorem lastIs_append (l : List CommTime) (e : CommTime) : LastIs (l ++ [e]) e.recorded := by
  unfold LastIs
  rw [List.getLast?_append, List.getLast?_singleton]
  rfl

theorem recordRound_spec (p : Profile) (call : ℕ) (now : ℤ) :
    (p.recordRound call now).profileFlag = p.profileFlag ∧
      (p.recordRound call now).partCommTime = p.partCommTime ∧
      (p.profileFlag = true → LastIs (p.recordRound call now).commTime (.round call)) := by
  unfold recordRound
  by_cases hflag : p.profileFlag = true
  · rw [if_pos hflag]
    exact ⟨rfl, rfl, fun _ => lastIs_append _ _⟩
  · rw [if_neg hflag]
    exact ⟨rfl, rfl, fun h => absurd h hflag⟩

theorem setPart_of_ne {key key' : ℕ} (h : key' ≠ key) (op : QueueType) (l : List CommTime) :
    (p.setPart key op l).partCommTime key' = p.partCommTime key' :=
  Function.update_of_ne h _ _

theorem setPart_self (key : ℕ) (op : QueueType) (l : List CommTime) :
    (p.setPart key op l).partCommTime key op = l := by
  unfold setPart
  dsimp only
  rw [Function.update_self, Function.update_self]

theorem recorderTs_spec {t : Task} {op : QueueType} {rest : List QueueType}
    (hlist : t.queueList = op :: rest) (h : p.recorderTs t now = .ok p') :
    p'.profileFlag = p.profileFlag ∧ p'.commTime = p.commTime ∧
      (∀ key ≠ t.key, p'.partCommTime key = p.partCommTime key) ∧
      (p.profileFlag = true → LastIs (p'.partCommTime t.key op) (.stage t.id t.queueList.length)) := by
  unfold recorderTs at h
  by_cases hflag : p.profileFlag = true
  · rw [if_pos hflag, hlist] at h
    cases h
    refine ⟨rfl, rfl, fun key hkey => setPart_of_ne hkey _ _, fun _ => ?_⟩
    rw [setPart_self, hlist]
    exact lastIs_append _ _
  · rw [if_neg hflag] at h
    cases h
    exact ⟨rfl, rfl, fun _ _ => rfl, fun h => absurd h hflag⟩

theorem finishStage_spec {key : ℕ} {op : QueueType} (h : p.finishStage key op now = .ok p') :
    p'.profileFlag = p.profileFlag ∧ p'.commTime = p.commTime ∧
      ∀ key' ≠ key, p'.partCommTime key' = p.partCommTime key' := by
  unfold finishStage at h
  by_cases hflag : p.profileFlag = true
  · rw [if_pos hflag] at h
    obtain ⟨l, _, rfl⟩ := map_eq_ok h
    exact ⟨rfl, rfl, fun key hkey => setPart_of_ne hkey _ _⟩
  · rw [if_neg hflag] at h
    cases h
    exact ⟨rfl, rfl, fun _ _ => rfl⟩

/-- A duration is written into the last entry. -/
theorem setDur_last {l l' : List CommTime} (h : setDur l now = .ok l') (r : Recorded) :
    LastIs l' r ↔ LastIs l r := by
  unfold setDur at h
  cases hlast : l.getLast? with
  | none =>
      rw [hlast] at h
      cases h
  | some e =>
      rw [hlast] at h
      obtain ⟨_, _, h⟩ := bind_eq_ok h
      cases h
      unfold LastIs
      rw [List.getLast?_append, List.getLast?_singleton, hlast]
      rfl

theorem finishRound_spec (h : p.finishRound now = .ok p') :
    p'.profileFlag = p.profileFlag ∧ p'.partCommTime = p.partCommTime ∧
      ∀ r, LastIs p'.commTime r ↔ LastIs p.commTime r := by
  unfold finishRound at h
  by_cases hflag : p.profileFlag = true
  · rw [if_pos hflag] at h
    obtain ⟨l, hl, rfl⟩ := map_eq_ok h
    exact ⟨rfl, rfl, setDur_last hl⟩
  · rw [if_neg hflag] at h
    cases h
    exact ⟨rfl, rfl, fun _ => .rfl⟩

/-- The flag is switched on at one step only. -/
theorem setProfileFlag_spec {setup : Setup} (h : p.setProfileFlag setup = .ok p') :
    p'.commTime = p.commTime ∧ p'.partCommTime = p.partCommTime ∧
      (p'.profileFlag = true → p.stepCnt ≠ setup.startStep - 1 → p.profileFlag = true) := by
  unfold setProfileFlag at h
  by_cases htrace : setup.isTrace = true
  · rw [if_pos htrace] at h
    obtain ⟨_, _, h⟩ := bind_eq_ok h
    cases h
    by_cases hon : p.stepCnt = setup.startStep - 1
    · rw [if_pos hon]
      exact ⟨rfl, rfl, fun _ hoff => absurd hon hoff⟩
    · rw [if_neg hon]
      by_cases hoff : p.stepCnt = setup.endStep
      · rw [if_pos hoff]
        exact ⟨rfl, rfl, fun h => by cases h⟩
      · rw [if_neg hoff]
        exact ⟨rfl, rfl, fun h _ => h⟩
  · rw [if_neg htrace] at h
    cases h
    exact ⟨rfl, rfl, fun h => by cases h⟩

end Profile

/-! ### Rounds

A round is open from its call to its callback, and unread until its entry was read.
`BetweenRounds` is the condition on a step, and is decided by the state before it.
-/

/-- A round of a tensor that has not called back. -/
def Pipeline.Open (s : Pipeline) (n call : ℕ) : Prop :=
  ∃ issue, s.issued[call]? = some issue ∧ issue.context = n ∧ callbacks s.log call = 0

/-- A `FinishOrProceed` has called back and still has to read the entry of its round. -/
def Pipeline.Unread (s : Pipeline) (c : Completing) : Prop :=
  c ∈ s.completing ∧ c.phase = .commTime

/-- A round of a tensor is not over, as far as its entry goes. -/
def Pipeline.Busy (s : Pipeline) (n : ℕ) : Prop :=
  (∃ call, s.Open n call) ∨ ∃ c, s.Unread c ∧ c.context = n

/-- A tensor is enqueued again after it has called back. -/
def AfterCallback (s : Pipeline) : Act → Prop
  | .enqueueTensor args _ => ∀ call, ¬s.Open args.context call
  | _ => True

/--
A tensor is not enqueued with the flag set while the entry of a round is still to be read, its
flag is not switched on during a round, and its partitions can be counted.
-/
def BetweenRounds (setup : Setup) (s : Pipeline) : Act → Prop
  | .enqueueTensor args _ =>
    (setup.context args.context).keyList.length ≤ 2 ^ 32 ∧
      ((s.profile args.context).profileFlag = true →
        ∀ c, s.Unread c → c.context ≠ args.context)
  | .complete i _ =>
    ∀ c, s.completing[i]? = some c → c.phase = .profileFlag →
      (s.profile c.context).stepCnt = setup.startStep - 1 → ¬s.Busy c.context
  | _ => True

instance (s : Pipeline) (n call : ℕ) : Decidable (s.Open n call) :=
  decidable_of_iff ((s.issued[call]?).any (fun issue => issue.context = n) = true ∧
      callbacks s.log call = 0) (by
    unfold Pipeline.Open
    rw [Option.any_eq_true]
    simp only [decide_eq_true_iff]
    exact ⟨fun ⟨⟨issue, hissue, hcontext⟩, hcall⟩ => ⟨issue, hissue, hcontext, hcall⟩,
      fun ⟨issue, hissue, hcontext, hcall⟩ => ⟨⟨issue, hissue, hcontext⟩, hcall⟩⟩)

instance (s : Pipeline) (n : ℕ) : Decidable (∀ call, ¬s.Open n call) :=
  decidable_of_iff (∀ call < s.issued.length, ¬s.Open n call)
    ⟨fun h call hcall => h call (List.getElem?_eq_some_iff.mp hcall.choose_spec.1).1 hcall,
      fun h call _ => h call⟩

instance (s : Pipeline) (n : ℕ) : Decidable (∀ c, s.Unread c → c.context ≠ n) :=
  decidable_of_iff (∀ c ∈ s.completing, c.phase = .commTime → c.context ≠ n)
    ⟨fun h c hc => h c hc.1 hc.2, fun h c hin hphase => h c ⟨hin, hphase⟩⟩

instance (s : Pipeline) (n : ℕ) : Decidable (s.Busy n) :=
  decidable_of_iff (¬((∀ call, ¬s.Open n call) ∧ ∀ c, s.Unread c → c.context ≠ n)) (by
    unfold Pipeline.Busy
    rw [Classical.not_and_iff_not_or_not, Classical.not_forall_not]
    simp)

instance (s : Pipeline) : ∀ a, Decidable (AfterCallback s a)
  | .enqueueTensor args _ => inferInstanceAs (Decidable (∀ call, ¬s.Open args.context call))
  | .addNext _ | .getTask .. | .getTaskOf .. | .finishOrProceed .. | .complete ..
  | .addReadyCount .. | .reset .. => .isTrue trivial

instance (setup : Setup) (s : Pipeline) : ∀ a, Decidable (BetweenRounds setup s a)
  | .enqueueTensor .. => inferInstanceAs (Decidable (_ ∧ (_ → _)))
  | .complete i _ => inferInstanceAs (Decidable (∀ c, s.completing[i]? = some c → _ → _ → _))
  | .addNext _ | .getTask .. | .getTaskOf .. | .finishOrProceed .. | .addReadyCount ..
  | .reset .. => .isTrue trivial

/-- What is read is the entry it was recorded for. -/
structure ReadsOwn (s : Pipeline) : Prop where
  /-- of every task that may be handed to `FinishOrProceed` -/
  stage : ∀ t ∈ s.taken, (s.profile t.context).profileFlag = true →
    ∃ op rest, t.queueList = op :: rest ∧
      LastIs ((s.profile t.context).partCommTime t.key op) (.stage t.id t.queueList.length)
  /-- of every round that has called back -/
  round : ∀ c, s.Unread c → (s.profile c.context).profileFlag = true →
    LastIs (s.profile c.context).commTime (.round c.call)

/-- What holds throughout a run. -/
structure Pipeline.Tracing (setup : Setup) (s : Pipeline) : Prop where
  parts : ∀ issue ∈ s.issued, issue.stages ≠ [] →
    issue.parts = (setup.context issue.context).keyList.length ∧ issue.parts ≤ 2 ^ 32
  one : ∀ n call call', s.Open n call → s.Open n call' → call = call'
  stage : ∀ t op rest, (.taken, t) ∈ s.places → t.queueList = op :: rest →
    (s.profile t.context).profileFlag = true →
      LastIs ((s.profile t.context).partCommTime t.key op) (.stage t.id t.queueList.length)
  live : ∀ n call, s.Open n call → (s.profile n).profileFlag = true →
    LastIs (s.profile n).commTime (.round call)
  unread : ∀ c, s.Unread c → (s.profile c.context).profileFlag = true →
    LastIs (s.profile c.context).commTime (.round c.call)

namespace Pipeline.Tracing

open Pipeline.Inv (getElem?_issued)

variable {setup : Setup} {s s' : Pipeline}

/-- The call of a task has not called back. -/
theorem open_of_stands (h : s.Tracing setup) (hinv : s.Inv setup) {x : Place × Task} {call : ℕ}
    {issue : Issue} (hx : x ∈ s.places) (ht : Stands setup s.issued s.log x call issue) :
    s.Open x.2.context call := by
  have hstages : issue.stages ≠ [] := by
    rw [← ht.stages]
    exact List.append_ne_nil_of_right_ne_nil _ ht.left
  have hid : (some call, x.2.part) ∈ s.ids := ht.id_eq ▸ List.mem_map_of_mem hx
  have hlt := doneCount_lt ht.part hid
  have hparts := (h.parts issue (List.mem_of_getElem? ht.issued) hstages).2
  refine ⟨issue, ht.issued, ht.context.symm, ?_⟩
  rw [hinv.called call issue ht.issued hstages (by have := ht.part; omega) hparts,
    if_neg (Nat.ne_of_lt hlt)]

/-- Two tasks of a tensor have different keys. -/
theorem key_ne (h : s.Tracing setup) (hinv : s.Inv setup) {x y : Place × Task} (hx : x ∈ s.places)
    (hy : y ∈ s.places) (hcontext : x.2.context = y.2.context) (hid : x.2.id ≠ y.2.id) :
    x.2.key ≠ y.2.key := by
  intro hkey
  obtain ⟨call, issue, hsx⟩ := hinv.stands x hx
  obtain ⟨call', issue', hsy⟩ := hinv.stands y hy
  have hone : call = call' := h.one x.2.context call call' (h.open_of_stands hinv hx hsx)
    (hcontext ▸ h.open_of_stands hinv hy hsy)
  subst hone
  obtain rfl := Option.some.inj (hsx.issued.symm.trans hsy.issued)
  have hstages : issue.stages ≠ [] := by
    rw [← hsx.stages]
    exact List.append_ne_nil_of_right_ne_nil _ hsx.left
  have hparts := (h.parts issue (List.mem_of_getElem? hsx.issued) hstages).1
  have hltx : x.2.part < (setup.context issue.context).keyList.length := hparts ▸ hsx.part
  have hlty : y.2.part < (setup.context issue.context).keyList.length := hparts ▸ hsy.part
  rw [hsx.key, hsy.key, List.getD_eq_getElem _ _ hltx, List.getD_eq_getElem _ _ hlty] at hkey
  have hpart := (List.Nodup.getElem_inj_iff (setup.context issue.context).nodup).mp hkey
  rw [hsx.id_eq, hsy.id_eq, hpart] at hid
  exact hid rfl

/-- No round has begun, and no flag was switched on during one. -/
theorem of_frame (h : s.Tracing setup)
    (hparts : ∀ issue ∈ s'.issued, issue.stages ≠ [] →
      issue.parts = (setup.context issue.context).keyList.length ∧ issue.parts ≤ 2 ^ 32)
    (hopen : ∀ n call, s'.Open n call → s.Open n call)
    (hunread : ∀ c, s'.Unread c → s.Unread c ∨ s.Open c.context c.call)
    (hflag : ∀ n, s.Busy n → (s'.profile n).profileFlag = true → (s.profile n).profileFlag = true)
    (hcomm : ∀ n r, LastIs (s.profile n).commTime r → LastIs (s'.profile n).commTime r)
    (hstage : ∀ t op rest, (.taken, t) ∈ s'.places → t.queueList = op :: rest →
      (s'.profile t.context).profileFlag = true →
        LastIs ((s'.profile t.context).partCommTime t.key op) (.stage t.id t.queueList.length)) :
    s'.Tracing setup where
  parts := hparts
  one n call call' hcall hcall' := h.one n call call' (hopen n call hcall) (hopen n call' hcall')
  stage := hstage
  live n call hcall hset := by
    have hcall := hopen n call hcall
    exact hcomm n _ (h.live n call hcall (hflag n (.inl ⟨call, hcall⟩) hset))
  unread c hc hset := by
    apply hcomm
    rcases hunread c hc with hc | hcall
    · exact h.unread c hc (hflag _ (.inr ⟨c, hc, rfl⟩) hset)
    · exact h.live _ _ hcall (hflag _ (.inl ⟨_, hcall⟩) hset)

/-- The tasks the loops have, and what is recorded of stages, are the same. -/
theorem stage_same (h : s.Tracing setup) (hinv : s.Inv setup)
    (htaken : ∀ t, (.taken, t) ∈ s'.places → (.taken, t) ∈ s.places)
    (hflag : ∀ n, s.Busy n → (s'.profile n).profileFlag = true → (s.profile n).profileFlag = true)
    (hpart : ∀ n, (s'.profile n).partCommTime = (s.profile n).partCommTime)
    (t : Task) (op : QueueType) (rest : List QueueType) (ht : (.taken, t) ∈ s'.places)
    (hlist : t.queueList = op :: rest) (hset : (s'.profile t.context).profileFlag = true) :
    LastIs ((s'.profile t.context).partCommTime t.key op) (.stage t.id t.queueList.length) := by
  have ht := htaken t ht
  obtain ⟨call, issue, hstands⟩ := hinv.stands _ ht
  have hcall : s.Open t.context call := h.open_of_stands hinv ht hstands
  rw [hpart]
  exact h.stage t op rest ht hlist (hflag _ (.inl ⟨call, hcall⟩) hset)

/-- What is recorded of the stages of one task is of no matter to the others. -/
theorem stage_other (h : s.Tracing setup) (hinv : s.Inv setup) {x : Place × Task} {p : Profile}
    (hx : x ∈ s.places) (hprofile : s'.profile = Function.update s.profile x.2.context p)
    (hflag : p.profileFlag = (s.profile x.2.context).profileFlag)
    (hpart : ∀ key ≠ x.2.key, p.partCommTime key = (s.profile x.2.context).partCommTime key)
    {t : Task} {op : QueueType} {rest : List QueueType} (ht : (.taken, t) ∈ s.places)
    (hid : t.id ≠ x.2.id) (hlist : t.queueList = op :: rest)
    (hset : (s'.profile t.context).profileFlag = true) :
    LastIs ((s'.profile t.context).partCommTime t.key op) (.stage t.id t.queueList.length) := by
  rw [hprofile] at hset ⊢
  by_cases hcontext : t.context = x.2.context
  · have hkey : t.key ≠ x.2.key := h.key_ne hinv ht hx hcontext hid
    have hold := h.stage t op rest ht hlist
    rw [hcontext, Function.update_self] at hset ⊢
    rw [hcontext] at hold
    rw [hpart _ hkey]
    exact hold (hflag ▸ hset)
  · rw [Function.update_of_ne hcontext] at hset ⊢
    exact h.stage t op rest ht hlist hset

/-! ### Every step keeps it

Most effects of `Pipeline.lean` write nothing into a profile.  Those that do write to the
profile of one tensor, and to one list of it.
-/

theorem open_mono (hissued : s'.issued = s.issued)
    (hcalls : ∀ call, callbacks s'.log call = 0 → callbacks s.log call = 0) (n call : ℕ)
    (h : s'.Open n call) : s.Open n call := by
  obtain ⟨issue, hissue, hcontext, hcall⟩ := h
  exact ⟨issue, hissued ▸ hissue, hcontext, hcalls call hcall⟩

/-- Nothing that matters has changed. -/
theorem of_same (h : s.Tracing setup) (hinv : s.Inv setup)
    (htaken : ∀ t, (.taken, t) ∈ s'.places → (.taken, t) ∈ s.places)
    (hissued : s'.issued = s.issued) (hlog : s'.log = s.log) (hprofile : s'.profile = s.profile)
    (hcompleting : s'.completing = s.completing) : s'.Tracing setup := by
  have hflag : ∀ n, s.Busy n → (s'.profile n).profileFlag = true →
      (s.profile n).profileFlag = true := by
    intro n _ hset
    rwa [hprofile] at hset
  refine h.of_frame (hissued ▸ h.parts) (open_mono hissued fun _ hcall => hlog ▸ hcall)
    (fun c hc => .inl ⟨hcompleting ▸ hc.1, hc.2⟩) hflag (fun n r hr => ?_)
    (h.stage_same hinv htaken hflag fun n => ?_)
  · rw [hprofile]
    exact hr
  · rw [hprofile]

/-- A tensor is enqueued between its rounds. -/
theorem of_enqueued (h : s.Tracing setup) (hinv : s.Inv setup) {issue : Issue} {tasks : List Task}
    {now : ℤ} (hparts : issue.parts = tasks.length)
    (htasks : NewTasks setup issue.context s.issued.length issue.stages tasks)
    (hplaces : s'.places.Perm ((tasks.map fun t => (.adding s.adding.length, t)) ++ s.places))
    (hissued : s'.issued = s.issued ++ [issue]) (hlog : s'.log = s.log)
    (hprofile : s'.profile = Function.update s.profile issue.context
      ((s.profile issue.context).recordRound s.issued.length now))
    (hcompleting : s'.completing = s.completing)
    (hafter : ∀ call, ¬s.Open issue.context call)
    (hcount : (setup.context issue.context).keyList.length ≤ 2 ^ 32)
    (hunread : (s.profile issue.context).profileFlag = true →
      ∀ c, s.Unread c → c.context ≠ issue.context) : s'.Tracing setup := by
  obtain ⟨hflag, hpart, hround⟩ :=
    (s.profile issue.context).recordRound_spec s.issued.length now
  have hopen {n call : ℕ} (hcall : s'.Open n call) :
      n = issue.context ∧ call = s.issued.length ∨ n ≠ issue.context ∧ s.Open n call := by
    obtain ⟨issue', hissue, hcontext, hcalls⟩ := hcall
    rw [hissued] at hissue
    rcases getElem?_issued hissue with ⟨hnew, rfl⟩ | ⟨_, hissue⟩
    · exact .inl ⟨hcontext.symm, hnew⟩
    · have hcall : s.Open n call := ⟨issue', hissue, hcontext, hlog ▸ hcalls⟩
      refine .inr ⟨fun heq => ?_, hcall⟩
      exact hafter call (heq ▸ hcall)
  have hof {n : ℕ} (hn : n ≠ issue.context) : s'.profile n = s.profile n := by
    rw [hprofile, Function.update_of_ne hn]
  have hof_self : s'.profile issue.context =
      (s.profile issue.context).recordRound s.issued.length now := by
    rw [hprofile, Function.update_self]
  have hflags (n : ℕ) : (s'.profile n).profileFlag = (s.profile n).profileFlag := by
    by_cases hn : n = issue.context
    · rw [hn, hof_self, hflag]
    · rw [hof hn]
  have htaken (t : Task) (ht : (Place.taken, t) ∈ s'.places) : (Place.taken, t) ∈ s.places := by
    rcases List.mem_append.mp (hplaces.mem_iff.mp ht) with ht | ht
    · obtain ⟨u, _, heq⟩ := List.mem_map.mp ht
      cases heq
    · exact ht
  constructor
  · intro issue' hmem hstages
    rw [hissued] at hmem
    rcases List.mem_append.mp hmem with hmem | hmem
    · exact h.parts issue' hmem hstages
    · rw [List.mem_singleton.mp hmem]
      have hlength := hparts.trans htasks.length
      exact ⟨hlength, hlength ▸ hcount⟩
  · intro n call call' hcall hcall'
    rcases hopen hcall with ⟨hn, rfl⟩ | ⟨hn, hcall⟩
    · rcases hopen hcall' with ⟨_, rfl⟩ | ⟨hn', _⟩
      · rfl
      · exact absurd hn hn'
    · rcases hopen hcall' with ⟨hn', _⟩ | ⟨_, hcall'⟩
      · exact absurd hn' hn
      · exact h.one n call call' hcall hcall'
  · refine h.stage_same hinv htaken (fun n _ hset => hflags n ▸ hset) fun n => ?_
    by_cases hn : n = issue.context
    · rw [hn, hof_self, hpart]
    · rw [hof hn]
  · intro n call hcall hset
    rw [hflags] at hset
    rcases hopen hcall with ⟨rfl, rfl⟩ | ⟨hn, hcall⟩
    · rw [hof_self]
      exact hround hset
    · rw [hof hn]
      exact h.live n call hcall hset
  · intro c hc hset
    have hc : s.Unread c := ⟨hcompleting ▸ hc.1, hc.2⟩
    rw [hflags] at hset
    have hn : c.context ≠ issue.context := fun hn => hunread (hn ▸ hset) c hc hn
    rw [hof hn]
    exact h.unread c hc hset

/-- A tensor without stages is enqueued. -/
theorem of_skipped (h : s.Tracing setup) (hinv : s.Inv setup) {issue : Issue}
    (hstages : issue.stages = []) (hplaces : s'.places = s.places)
    (hissued : s'.issued = s.issued ++ [issue])
    (hlog : s'.log = .callback s.issued.length :: s.log) (hprofile : s'.profile = s.profile)
    (hcompleting : s'.completing = s.completing) : s'.Tracing setup := by
  have hflag : ∀ n, s.Busy n → (s'.profile n).profileFlag = true →
      (s.profile n).profileFlag = true := by
    intro n _ hset
    rwa [hprofile] at hset
  refine h.of_frame (fun issue' hmem hne => ?_) (fun n call hcall => ?_)
    (fun c hc => .inl ⟨hcompleting ▸ hc.1, hc.2⟩) hflag (fun n r hr => ?_)
    (h.stage_same hinv (fun t ht => hplaces ▸ ht) hflag fun n => ?_)
  · rw [hissued] at hmem
    rcases List.mem_append.mp hmem with hmem | hmem
    · exact h.parts issue' hmem hne
    · rw [List.mem_singleton.mp hmem] at hne
      exact absurd hstages hne
  · obtain ⟨issue', hissue, hcontext, hcalls⟩ := hcall
    rw [hissued] at hissue
    rw [hlog, callbacks_callback] at hcalls
    rcases getElem?_issued hissue with ⟨hnew, _⟩ | ⟨_, hissue⟩
    · rw [if_pos hnew.symm] at hcalls
      omega
    · exact ⟨issue', hissue, hcontext, by omega⟩
  · rw [hprofile]
    exact hr
  · rw [hprofile]

/-- One profile is written, but not its flag and its times of rounds. -/
theorem kept_of_update {c : ℕ} {p : Profile}
    (hprofile : s'.profile = Function.update s.profile c p)
    (hflag : p.profileFlag = (s.profile c).profileFlag)
    (hcomm : p.commTime = (s.profile c).commTime) (n : ℕ) :
    (s'.profile n).profileFlag = (s.profile n).profileFlag ∧
      (s'.profile n).commTime = (s.profile n).commTime := by
  rw [hprofile]
  by_cases hn : n = c
  · rw [hn, Function.update_self]
    exact ⟨hflag, hcomm⟩
  · rw [Function.update_of_ne hn]
    exact ⟨rfl, rfl⟩

/-- A loop takes a task, and its stage is recorded. -/
theorem of_got (h : s.Tracing setup) (hinv : s.Inv setup) {op : QueueType} {t t' : Task} {now : ℤ}
    {p : Profile} {R : List (Place × Task)} (ht' : t' = { t with readyEvent := none })
    (hbefore : s.places.Perm ((.queue op, t) :: R)) (hafter : s'.places.Perm ((.taken, t') :: R))
    (hissued : s'.issued = s.issued) (hlog : s'.log = .got op t.id :: s.log)
    (hp : (s.profile t.context).recorderTs t now = .ok p)
    (hprofile : s'.profile = Function.update s.profile t.context p)
    (hcompleting : s'.completing = s.completing) : s'.Tracing setup := by
  subst ht'
  obtain ⟨_, hR, _⟩ := hinv.pick hbefore
  have hmem : (.queue op, t) ∈ s.places := hbefore.mem_iff.mpr List.mem_cons_self
  obtain ⟨call, issue, hstands⟩ := hinv.stands _ hmem
  obtain ⟨rest, hlist⟩ := List.head?_eq_some_iff.mp (hstands.queue op rfl)
  obtain ⟨hflag, hcomm, hpart, hlast⟩ := Profile.recorderTs_spec hlist hp
  have hkept := kept_of_update hprofile hflag hcomm
  refine h.of_frame (hissued ▸ h.parts) (open_mono hissued fun call hcall => ?_)
    (fun c hc => .inl ⟨hcompleting ▸ hc.1, hc.2⟩) (fun n _ hset => (hkept n).1 ▸ hset)
    (fun n r hr => (hkept n).2 ▸ hr) ?_
  · rwa [hlog, callbacks_got] at hcall
  · intro u op' rest' hu hlist' hset
    rcases List.mem_cons.mp (hafter.mem_iff.mp hu) with heq | hu
    · obtain rfl := (Prod.mk.inj heq).2
      obtain ⟨rfl, rfl⟩ := List.cons.inj (hlist.symm.trans hlist')
      rw [hprofile] at hset ⊢
      change (Function.update s.profile t.context p t.context).profileFlag = true at hset
      change LastIs ((Function.update s.profile t.context p t.context).partCommTime t.key op)
        (.stage t.id t.queueList.length)
      rw [Function.update_self] at hset ⊢
      exact hlast (hflag ▸ hset)
    · have hu' : (.taken, u) ∈ s.places := hbefore.mem_iff.mpr (List.mem_cons_of_mem _ hu)
      exact h.stage_other hinv hmem hprofile hflag hpart hu' (hR _ hu).1 hlist' hset

/-- A task has finished its stage, and its duration is written. -/
theorem of_finished (h : s.Tracing setup) (hinv : s.Inv setup) {op : QueueType} {t : Task} {now : ℤ}
    {p : Profile} {R : List (Place × Task)} (hbefore : s.places.Perm ((.taken, t) :: R))
    (hafter : ∀ u, (.taken, u) ∈ s'.places → (.taken, u) ∈ R) (hissued : s'.issued = s.issued)
    (hcalls : ∀ call, callbacks s'.log call = 0 → callbacks s.log call = 0)
    (hp : (s.profile t.context).finishStage t.key op now = .ok p)
    (hprofile : s'.profile = Function.update s.profile t.context p)
    (hunread : ∀ c, s'.Unread c → s.Unread c ∨ s.Open c.context c.call) : s'.Tracing setup := by
  obtain ⟨_, hR, _⟩ := hinv.pick hbefore
  have hmem : (.taken, t) ∈ s.places := hbefore.mem_iff.mpr List.mem_cons_self
  obtain ⟨hflag, hcomm, hpart⟩ := Profile.finishStage_spec hp
  have hkept := kept_of_update hprofile hflag hcomm
  refine h.of_frame (hissued ▸ h.parts) (open_mono hissued hcalls) hunread
    (fun n _ hset => (hkept n).1 ▸ hset) (fun n r hr => (hkept n).2 ▸ hr) ?_
  intro u op' rest hu hlist hset
  have hu := hafter u hu
  have hu' : (.taken, u) ∈ s.places := hbefore.mem_iff.mpr (List.mem_cons_of_mem _ hu)
  exact h.stage_other hinv hmem hprofile hflag hpart hu' (hR _ hu).1 hlist hset

/-- The last task of a round is counted, or another one. -/
theorem of_counted (h : s.Tracing setup) (hinv : s.Inv setup) {op : QueueType} {t : Task} {call : ℕ}
    {now : ℤ} {p : Profile} {R : List (Place × Task)} (hcall : t.counterPtr = some call)
    (hbefore : s.places.Perm ((.taken, t) :: R)) (hafter : s'.places.Perm R)
    (hissued : s'.issued = s.issued) (hp : (s.profile t.context).finishStage t.key op now = .ok p)
    (hprofile : s'.profile = Function.update s.profile t.context p)
    (hcallback : s'.log = .finished op t.id :: s.log ∧ s'.completing = s.completing ∨
      s'.log = .callback call :: .finished op t.id :: s.log ∧ s'.completing = s.completing ++
        [{ call := call, context := t.context, phase := .commTime }]) : s'.Tracing setup := by
  have hmem : (.taken, t) ∈ s.places := hbefore.mem_iff.mpr List.mem_cons_self
  obtain ⟨call', issue, hstands⟩ := hinv.stands _ hmem
  obtain rfl : call' = call := Option.some.inj (hstands.counter.symm.trans hcall)
  have hopen : s.Open t.context call' := h.open_of_stands hinv hmem hstands
  refine h.of_finished hinv hbefore (fun u hu => hafter.mem_iff.mp hu) hissued (fun c hc => ?_) hp
    hprofile (fun c hc => ?_)
  · rcases hcallback with ⟨hlog, _⟩ | ⟨hlog, _⟩
    · rwa [hlog, callbacks_finished] at hc
    · rw [hlog, callbacks_callback, callbacks_finished] at hc
      omega
  · rcases hcallback with ⟨_, hcompleting⟩ | ⟨_, hcompleting⟩
    · exact .inl ⟨hcompleting ▸ hc.1, hc.2⟩
    · obtain ⟨hin, hphase⟩ := hc
      rw [hcompleting] at hin
      rcases List.mem_append.mp hin with hin | hin
      · exact .inl ⟨hin, hphase⟩
      · rw [List.mem_singleton.mp hin]
        exact .inr hopen

/-- A `FinishOrProceed` goes on after its callback. -/
theorem of_completed (h : s.Tracing setup) (hinv : s.Inv setup) {c : Completing} {p : Profile}
    (hplaces : s'.places = s.places) (hissued : s'.issued = s.issued) (hlog : s'.log = s.log)
    (hprofile : s'.profile = Function.update s.profile c.context p)
    (hunread : ∀ c', s'.Unread c' → s.Unread c')
    (hflag : s.Busy c.context → p.profileFlag = true → (s.profile c.context).profileFlag = true)
    (hpart : p.partCommTime = (s.profile c.context).partCommTime)
    (hcomm : ∀ r, LastIs (s.profile c.context).commTime r → LastIs p.commTime r) :
    s'.Tracing setup := by
  have hof {n : ℕ} (hn : n ≠ c.context) : s'.profile n = s.profile n := by
    rw [hprofile, Function.update_of_ne hn]
  have hof_self : s'.profile c.context = p := by
    rw [hprofile, Function.update_self]
  have hflags (n : ℕ) (hbusy : s.Busy n) (hset : (s'.profile n).profileFlag = true) :
      (s.profile n).profileFlag = true := by
    by_cases hn : n = c.context
    · rw [hn, hof_self] at hset
      rw [hn]
      exact hflag (hn ▸ hbusy) hset
    · rwa [hof hn] at hset
  refine h.of_frame (hissued ▸ h.parts) (open_mono hissued fun _ hcall => hlog ▸ hcall)
    (fun c' hc' => .inl (hunread c' hc')) hflags (fun n r hr => ?_)
    (h.stage_same hinv (fun t ht => hplaces ▸ ht) hflags fun n => ?_)
  · by_cases hn : n = c.context
    · rw [hn] at hr
      rw [hn, hof_self]
      exact hcomm r hr
    · rwa [hof hn]
  · by_cases hn : n = c.context
    · rw [hn, hof_self, hpart]
    · rw [hof hn]

theorem step (h : s.Tracing setup) (hinv : s.Inv setup) {a : Act} (hstep : s.step setup a = .ok s')
    (hcalled : AfterCallback s a) (hbetween : BetweenRounds setup s a) : s'.Tracing setup := by
  cases step_effect hstep with
  | quiet _ hplaces _ hissued _ hlog hprofile hcompleting =>
      exact h.of_same hinv (fun t ht => hplaces ▸ ht) hissued hlog hprofile hcompleting
  | enqueued args now issue tasks hcontext hparts _ htasks hplaces _ hissued _ hlog hprofile
      hcompleting =>
      obtain ⟨hcount, hunread⟩ := hbetween
      rw [← hcontext] at hcount hunread
      exact h.of_enqueued hinv hparts htasks hplaces hissued hlog hprofile hcompleting
        (hcontext ▸ hcalled) hcount hunread
  | skipped _ _ _ hstages hplaces _ hissued _ hlog hprofile hcompleting =>
      exact h.of_skipped hinv hstages hplaces hissued hlog hprofile hcompleting
  | added call op t R _ hbefore hafter _ hissued _ hlog hprofile hcompleting =>
      refine h.of_same hinv (fun u hu => ?_) hissued hlog hprofile hcompleting
      rcases List.mem_cons.mp (hafter.mem_iff.mp hu) with heq | hu
      · cases heq
      · exact hbefore.mem_iff.mpr (List.mem_cons_of_mem _ hu)
  | got _ _ _ _ _ _ _ ht' hbefore hafter _ hissued _ hlog hp hprofile hcompleting =>
      exact h.of_got hinv ht' hbefore hafter hissued hlog hp hprofile hcompleting
  | passed op next rest t now p R _ hbefore hafter _ hissued _ hlog hp hprofile hcompleting =>
      refine h.of_finished hinv hbefore (fun u hu => ?_) hissued (fun call hcall => ?_) hp hprofile
        (fun c hc => .inl ⟨hcompleting ▸ hc.1, hc.2⟩)
      · rcases List.mem_cons.mp (hafter.mem_iff.mp hu) with heq | hu
        · cases heq
        · exact hu
      · rwa [hlog, callbacks_finished] at hcall
  | counted _ _ _ _ _ _ _ hcall hbefore hafter _ hissued _ hp hprofile hcallback =>
      refine h.of_counted hinv hcall hbefore hafter hissued hp hprofile ?_
      rcases hcallback with ⟨_, hcallback⟩ | ⟨_, hcallback⟩
      · exact .inl hcallback
      · exact .inr hcallback
  | completed i now c hc hplaces _ hissued _ hlog hphase =>
      have hset {c' : Completing} {phase : Phase} (hphase : phase ≠ .commTime)
          (hcompleting : s'.completing = s.completing.set i { c with phase := phase })
          (hc' : s'.Unread c') : s.Unread c' := by
        refine ⟨?_, hc'.2⟩
        rcases List.mem_or_eq_of_mem_set (hcompleting ▸ hc'.1) with hin | heq
        · exact hin
        · rw [heq] at hc'
          exact absurd hc'.2 hphase
      rcases hphase with ⟨_, p, hp, hprofile, hcompleting⟩ | ⟨_, hprofile, hcompleting⟩ |
        ⟨hlast, p, hp, hprofile, hcompleting⟩
      · obtain ⟨hflag, hpart, hcomm⟩ := Profile.finishRound_spec hp
        exact h.of_completed hinv hplaces hissued hlog hprofile
          (fun c' => hset (by decide) hcompleting) (fun _ hon => hflag ▸ hon) hpart
          fun r => (hcomm r).mpr
      · exact h.of_completed hinv hplaces hissued hlog hprofile
          (fun c' => hset (by decide) hcompleting) (fun _ hon => hon) rfl fun _ hr => hr
      · obtain ⟨hcomm, hpart, hflag⟩ := Profile.setProfileFlag_spec hp
        refine h.of_completed hinv hplaces hissued hlog hprofile (fun c' hc' => ?_)
          (fun hbusy hon => hflag hon fun hstep => ?_) hpart fun r hr => hcomm ▸ hr
        · exact ⟨List.mem_of_mem_eraseIdx (hcompleting ▸ hc'.1), hc'.2⟩
        · exact hbetween c hc hlast hstep hbusy

end Pipeline.Tracing

/-! ### Every duration goes to its own entry -/

theorem mem_places_taken {s : Pipeline} {t : Task} : (.taken, t) ∈ s.places ↔ t ∈ s.taken := by
  unfold Pipeline.places addingPlaces queuePlaces
  simp

theorem Pipeline.Tracing.start (setup : Setup) (p : Profile) :
    (Pipeline.start setup p).Tracing setup where
  parts := fun _ h => by cases h
  one := fun _ _ _ h => by
    obtain ⟨_, hissue, _⟩ := h
    cases hissue
  stage := fun _ _ _ h => by cases (mem_places_taken.mp h)
  live := fun _ _ h => by
    obtain ⟨_, hissue, _⟩ := h
    cases hissue
  unread := fun _ h => by cases h.1

/--
**In a run that switches the profile between rounds, every duration is written into the entry
that was recorded for it.**

The condition is on each step: that no tensor is enqueued while the entry of an earlier round of
it is still to be read, and that no flag is switched on during a round.
-/
theorem readsOwn_of_reachable {setup : Setup} {s : Pipeline}
    (h : Reachable (Pipeline.Started setup)
      (Guarded (fun s a => AfterCallback s a ∧ BetweenRounds setup s a)
        fun s a s' => s.step setup a = .ok s') s) : ReadsOwn s := by
  have hboth : s.Inv setup ∧ s.Tracing setup := by
    refine h.invariant (P := fun s => s.Inv setup ∧ s.Tracing setup) (fun s hs => ?_)
      fun s a s' _ hinv hstep => ?_
    · obtain ⟨p, _, rfl⟩ := hs
      exact ⟨Pipeline.inv_start setup p, .start setup p⟩
    · obtain ⟨⟨hafter, hbetween⟩, hstep⟩ := hstep
      exact ⟨hinv.1.step hstep, hinv.2.step hinv.1 hstep hafter hbetween⟩
  obtain ⟨hinv, htracing⟩ := hboth
  refine ⟨fun t ht hset => ?_, htracing.unread⟩
  have ht := mem_places_taken.mpr ht
  obtain ⟨call, issue, hstands⟩ := hinv.stands _ ht
  obtain ⟨op, rest, hlist⟩ := List.exists_cons_of_ne_nil hstands.left
  exact ⟨op, rest, hlist, htracing.stage t op rest ht hlist hset⟩

/-- Tensors of one partition, profiled from step `startStep` to step `endStep`. -/
def tracedPart (startStep endStep : ℤ) : Setup :=
  { manyParts 1 with
    isTrace := true
    startStep := startStep
    endStep := endStep }

/-- A round after the flag was switched on. -/
theorem readsOwn_second_round : ∃ s, (s.profile 0).profileFlag = true ∧
    s.completing = [⟨1, 0, .commTime⟩] ∧ ReadsOwn s := by
  have hrun : (run (fun s a => if AfterCallback s a ∧ BetweenRounds (tracedPart 2 4) s a then
        s.step (tracedPart 2 4) a else .error .notEnabled)
      (Pipeline.start (tracedPart 2 4) Profile.init)
      [.enqueueTensor (manyPartsArgs 1) 0, .addNext 0, .getTask .reduce (fun _ => true) 0,
        .finishOrProceed (manyPartsTask 1 0) 0, .complete 0 0, .complete 0 0, .complete 0 0,
        .enqueueTensor (manyPartsArgs 1) 0, .addNext 1, .getTask .reduce (fun _ => true) 0,
        .finishOrProceed { manyPartsTask 1 0 with counterPtr := some 1 } 0]).toOption.map
      (fun s => ((s.profile 0).profileFlag, s.completing)) = some (true, [⟨1, 0, .commTime⟩]) := by
    decide +kernel
  obtain ⟨s, hs, heq⟩ := Option.map_eq_some_iff.mp hrun
  obtain ⟨hflag, hcompleting⟩ := Prod.mk.inj heq
  have hstart : Pipeline.Started (tracedPart 2 4) (.start (tracedPart 2 4) Profile.init) :=
    ⟨Profile.init, rfl, rfl⟩
  exact ⟨s, hflag, hcompleting,
    readsOwn_of_reachable (reachable_of_guarded_run _ (.start hstart) (toOption_eq_some hs))⟩

/-- The tensor is enqueued again after its callback, before the entry of its round is read. -/
theorem next_round_read : ¬∀ (setup : Setup) (s : Pipeline), setup.isTrace = true →
    1 ≤ setup.startStep → setup.startStep < setup.endStep →
      Reachable (Pipeline.Started setup) (Guarded AfterCallback
        fun s a s' => s.step setup a = .ok s') s → ReadsOwn s := by
  intro h
  have hrun : (run (fun s a => if AfterCallback s a then s.step (tracedPart 1 2) a
        else .error .notEnabled)
      (Pipeline.start (tracedPart 1 2) { Profile.init with profileFlag := true })
      [.enqueueTensor (manyPartsArgs 1) 0, .addNext 0, .getTask .reduce (fun _ => true) 0,
        .finishOrProceed (manyPartsTask 1 0) 0,
        .enqueueTensor (manyPartsArgs 1) 0]).toOption.map
      (fun s => ((s.profile 0).profileFlag, s.completing,
        (s.profile 0).commTime.getLast?.map (·.recorded))) =
      some (true, [⟨0, 0, .commTime⟩], some (.round 1)) := by
    decide +kernel
  obtain ⟨s, hs, heq⟩ := Option.map_eq_some_iff.mp hrun
  obtain ⟨hflag, heq⟩ := Prod.mk.inj heq
  obtain ⟨hcompleting, hlast⟩ := Prod.mk.inj heq
  have hreads := h (tracedPart 1 2) s rfl (by decide) (by decide)
    (reachable_of_guarded_run _ (.start ⟨{ Profile.init with profileFlag := true }, rfl, rfl⟩)
      (toOption_eq_some hs))
  have hround := hreads.round ⟨0, 0, .commTime⟩
    ⟨by rw [hcompleting]; exact List.mem_singleton_self _, rfl⟩ hflag
  exact absurd (hlast.symm.trans hround) (by decide)

/-- A flag that is switched on when the next round has begun: its entry is not there. -/
example : (match run (Pipeline.step (tracedPart 2 4))
      (Pipeline.start (tracedPart 2 4) Profile.init)
      [.enqueueTensor (manyPartsArgs 1) 0, .addNext 0, .getTask .reduce (fun _ => true) 0,
        .finishOrProceed (manyPartsTask 1 0) 0, .enqueueTensor (manyPartsArgs 1) 0,
        .complete 0 0, .complete 0 0, .complete 0 0, .addNext 1,
        .getTask .reduce (fun _ => true) 0,
        .finishOrProceed { manyPartsTask 1 0 with counterPtr := some 1 } 0, .complete 0 0] with
    | .ok _ => none
    | .error stop => some stop) = some .emptyQueue := by
  decide +kernel

end DeepInc.Worker
