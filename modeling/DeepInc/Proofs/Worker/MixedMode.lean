/-
When the hash function of the mixed mode can be trusted.

In the mixed mode some servers share their machine with a worker and others have a machine of
their own.  The hash function gives the latter a share of the keys by a quotient, and a check is
to reject more of them than there are workers, by the quotient being more than one.

With two workers or more the divisor is positive, and the quotient is at most one exactly if the
servers on machines of their own are at most as many as the workers.  So the checks reject what
the message says.

With one worker the dividend is zero, and the divisor is one minus the number of these servers,
so that it vanishes for one of them and wraps around for more.  For one the quotient is no
number.  For more it is zero and the checks pass, although there are more of these servers than
workers.

For two workers or more, then, a key is hashed only where it should be, and its server is of the
kind its hash says.
-/
import DeepInc.Proofs.Worker.KeyEncoding
import DeepInc.Worker.MixedMode
import Mathlib.Tactic.FieldSimp

namespace DeepInc.Worker

variable {env : KeyEnv} {w nc bound key : ℕ}

/-! ### The quotient -/

/-- From two workers on nothing wraps. -/
theorem mixedDivisor_eq (hw : 2 ≤ w) (hfit : w + nc < 2 ^ 31) :
    mixedDivisor w nc + 2 * nc = w * (w + nc) ∧ 0 < mixedDivisor w nc := by
  have hlt : w * (w + nc) < 2 ^ 31 * 2 ^ 31 := Nat.mul_lt_mul'' (by omega) hfit
  have hle : 2 * (w + nc) ≤ w * (w + nc) := Nat.mul_le_mul_right _ hw
  unfold mixedDivisor uint64
  dsimp only
  rw [Nat.mod_eq_of_lt (show w + nc < 2 ^ 64 by omega)]
  generalize w * (w + nc) = p at *
  omega

/-- With one worker it is below zero, unless no server is on a machine of its own. -/
theorem mixedDivisor_one (hfit : nc < 2 ^ 31) :
    mixedDivisor 1 nc = if nc = 0 then 1 else if nc = 1 then 0 else 2 ^ 64 + 1 - nc := by
  unfold mixedDivisor uint64
  dsimp only
  split
  · omega
  · split <;> omega

theorem mixedRatio_eq_some {ratio : ℚ} (h : mixedRatio w nc = some ratio) :
    mixedDivisor w nc ≠ 0 ∧ ratio = 2 * nc * (w - 1) / mixedDivisor w nc := by
  unfold mixedRatio at h
  simp only at h
  split at h
  · cases h
  · rename_i hne
    exact ⟨hne, (Option.some.inj h).symm⟩

theorem mixedRatio_eq (h : mixedDivisor w nc ≠ 0) :
    mixedRatio w nc = some (2 * nc * (w - 1) / mixedDivisor w nc : ℚ) := if_neg h

/-- The quotient is at most one exactly for as many servers as workers. -/
theorem ratio_le_one_iff (hw : 2 ≤ w) (hfit : w + nc < 2 ^ 31) :
    (2 * nc * (w - 1) / mixedDivisor w nc : ℚ) ≤ 1 ↔ nc ≤ w := by
  obtain ⟨hdivisor, hpos⟩ := mixedDivisor_eq hw hfit
  have hposQ : (0 : ℚ) < mixedDivisor w nc := Nat.cast_pos.mpr hpos
  have hdivisorQ : (mixedDivisor w nc : ℚ) + 2 * nc = w * (w + nc) := by exact_mod_cast hdivisor
  have hwQ : (0 : ℚ) < w := Nat.cast_pos.mpr (by omega)
  rw [div_le_one hposQ, ← Nat.cast_le (α := ℚ)]
  constructor
  · intro h
    have hmul : (nc : ℚ) * w ≤ w * w := by linarith
    exact le_of_mul_le_mul_right hmul hwQ
  · intro h
    have hmul : (nc : ℚ) * w ≤ w * w := mul_le_mul_of_nonneg_right h hwQ.le
    linarith

theorem ratio_nonneg (hw : 1 ≤ w) : (0 : ℚ) ≤ 2 * nc * (w - 1) / mixedDivisor w nc := by
  have hwQ : (1 : ℚ) ≤ w := Nat.one_le_cast.mpr hw
  exact div_nonneg (mul_nonneg (by positivity) (by linarith)) (Nat.cast_nonneg _)

/-! ### The function

`MixedModeSound` is what is asked for: a key is hashed if and only if there are no more servers
on machines of their own than workers, and then to a server of its kind.
-/

/-- A server is picked when the quotient is one the checks let pass. -/
theorem hashMixedModeOf_eq_ok {r : ℕ} : hashMixedModeOf env w bound key = .ok r ↔
    env.keyRanges.length ≤ bound ∧ ∃ ratio, mixedRatio w (numNoncolocate env w) = some ratio ∧
      ratio ≤ 1 ∧ 0 ≤ ratio ∧ r = mixedServer env w bound key ratio := by
  unfold hashMixedModeOf
  constructor
  · intro h
    obtain ⟨_, hbound, h⟩ := Outcome.bind_eq_ok h
    refine ⟨of_decide_eq_true (check_eq_ok hbound), ?_⟩
    cases hratio : mixedRatio w (numNoncolocate env w) with
    | none => simp [hratio] at h
    | some ratio =>
        simp only [hratio] at h
        obtain ⟨_, hle, h⟩ := Outcome.bind_eq_ok h
        obtain ⟨_, hge, h⟩ := Outcome.bind_eq_ok h
        exact ⟨ratio, rfl, of_decide_eq_true (check_eq_ok hle), of_decide_eq_true (check_eq_ok hge),
          (Except.ok.inj h).symm⟩
  · rintro ⟨hbound, ratio, hratio, hle, hge, rfl⟩
    rw [check_eq (decide_eq_true hbound), Outcome.ok_bind, hratio]
    simp only [check_eq (decide_eq_true hle), check_eq (decide_eq_true hge), Outcome.ok_bind]

theorem numNoncolocate_eq (hw : w ≤ env.keyRanges.length) (hn : env.keyRanges.length < 2 ^ 31) :
    numNoncolocate env w = env.keyRanges.length - w := by
  unfold numNoncolocate toUInt64
  omega

/-- What is asked of the function for a key. -/
structure MixedModeSound (env : KeyEnv) (w bound key : ℕ) : Prop where
  /-- its checks are the one their message states -/
  passes : (∃ r, hashMixedModeOf env w bound key = .ok r) ↔ env.keyRanges.length - w ≤ w
  /-- and when they pass, no divisor is zero, and the hash tells which kind of server it is -/
  picks : ∀ r, hashMixedModeOf env w bound key = .ok r →
    ∃ ratio, mixedRatio w (env.keyRanges.length - w) = some ratio ∧
      mixedDivisor w (env.keyRanges.length - w) ≠ 0 ∧ bound ≠ 0 ∧ w ≠ 0 ∧
      ((hashRes env bound key : ℚ) < ratio * bound → env.keyRanges.length - w ≠ 0) ∧
      r < env.keyRanges.length ∧
      (r < env.keyRanges.length - w ↔ (hashRes env bound key : ℚ) < ratio * bound)

/-- A server that is picked is one of the kind its hash says. -/
theorem mixedServer_spec (hw : 1 ≤ w) (hwn : w ≤ env.keyRanges.length)
    (hn : env.keyRanges.length < 2 ^ 31) {ratio : ℚ}
    (hratio : mixedRatio w (env.keyRanges.length - w) = some ratio) (bound key : ℕ) :
    ((hashRes env bound key : ℚ) < ratio * bound → env.keyRanges.length - w ≠ 0) ∧
      mixedServer env w bound key ratio < env.keyRanges.length ∧
      (mixedServer env w bound key ratio < env.keyRanges.length - w ↔
        (hashRes env bound key : ℚ) < ratio * bound) := by
  have hnonzero : (hashRes env bound key : ℚ) < ratio * bound → env.keyRanges.length - w ≠ 0 := by
    intro hlt hzero
    -- without such servers the threshold is zero
    obtain ⟨_, rfl⟩ := mixedRatio_eq_some hratio
    rw [hzero] at hlt
    simp only [Nat.cast_zero, mul_zero, zero_mul, zero_div] at hlt
    exact absurd hlt (not_lt.mpr (Nat.cast_nonneg _))
  unfold mixedServer
  simp only [numNoncolocate_eq hwn hn]
  refine ⟨hnonzero, ?_⟩
  by_cases hlt : (hashRes env bound key : ℚ) < ratio * bound
  · have hmod := Nat.mod_lt (hashDJB2 (env.cStr (hashRes env bound key)))
      (Nat.pos_of_ne_zero (hnonzero hlt))
    rw [if_pos hlt]
    exact ⟨by omega, iff_of_true hmod hlt⟩
  · have hmod := Nat.mod_lt (hashDJB2 (env.cStr (hashRes env bound key))) hw
    rw [if_neg hlt, uint64, Nat.mod_eq_of_lt (by omega)]
    exact ⟨by omega, iff_of_false (by omega) hlt⟩

/-- It is sound where its quotient is at most one for no more such servers than workers. -/
theorem mixedModeSound_of {ratio : ℚ} (hw : 1 ≤ w) (hwn : w ≤ env.keyRanges.length)
    (hbound : env.keyRanges.length ≤ bound) (hint : bound < 2 ^ 31)
    (hratio : mixedRatio w (env.keyRanges.length - w) = some ratio) (hge : 0 ≤ ratio)
    (hle : ratio ≤ 1 ↔ env.keyRanges.length - w ≤ w) : MixedModeSound env w bound key := by
  have hnc := numNoncolocate_eq hwn (Nat.lt_of_le_of_lt hbound hint)
  refine ⟨?_, fun r hr => ?_⟩
  · rw [← hle]
    constructor
    · rintro ⟨r, hr⟩
      obtain ⟨_, ratio', hratio', hle', _⟩ := hashMixedModeOf_eq_ok.mp hr
      rw [hnc, hratio] at hratio'
      exact Option.some.inj hratio' ▸ hle'
    · intro hle'
      exact ⟨_, hashMixedModeOf_eq_ok.mpr ⟨hbound, ratio, hnc ▸ hratio, hle', hge, rfl⟩⟩
  · obtain ⟨_, ratio', hratio', _, _, rfl⟩ := hashMixedModeOf_eq_ok.mp hr
    rw [hnc, hratio] at hratio'
    obtain rfl := Option.some.inj hratio'
    obtain ⟨hnonzero, hlt, hkind⟩ := mixedServer_spec hw hwn
      (Nat.lt_of_le_of_lt hbound hint) hratio bound key
    exact ⟨ratio, hratio, (mixedRatio_eq_some hratio).1, by omega, by omega, hnonzero, hlt, hkind⟩

/-- In the mixed mode `EncodeDefaultKey` sends a key to the server its hash picks. -/
theorem serverOf_mixed (hknob : env.hashKnob = "mixed") (hmode : env.mixedMode = true)
    (hhash : env.hashMixedMode key = hashMixedModeOf env w bound key) (hw : 1 ≤ w)
    (hwn : w ≤ env.keyRanges.length) (hint : bound < 2 ^ 31) :
    serverOf env key = hashMixedModeOf env w bound key := by
  have hmixed : serverOf env key = (do
      check env.mixedMode
      let server ← env.hashMixedMode key
      check (decide (server < env.keyRanges.length))
      .ok server) := by
    unfold serverOf
    rw [hknob]
    rfl
  rw [hmixed, check_eq hmode, Outcome.ok_bind, hhash]
  cases hserver : hashMixedModeOf env w bound key with
  | error fault => rfl
  | ok server =>
      obtain ⟨hbound, ratio, hratio, _, _, rfl⟩ := hashMixedModeOf_eq_ok.mp hserver
      have hn := Nat.lt_of_le_of_lt hbound hint
      rw [numNoncolocate_eq hwn hn] at hratio
      have hlt := (mixedServer_spec hw hwn hn hratio bound key).2.1
      rw [Outcome.ok_bind, check_eq (decide_eq_true hlt), Outcome.ok_bind]

/-- Of one worker and one other server the quotient is no number, of more servers it is zero. -/
theorem not_mixedModeSound_one (hn : 1 < env.keyRanges.length)
    (hbound : env.keyRanges.length ≤ bound) (hint : bound < 2 ^ 31) :
    ¬MixedModeSound env 1 bound key := by
  intro h
  have hnc := numNoncolocate_eq (w := 1) hn.le (Nat.lt_of_le_of_lt hbound hint)
  have hdivisor := mixedDivisor_one (show env.keyRanges.length - 1 < 2 ^ 31 by omega)
  rw [if_neg (by omega)] at hdivisor
  by_cases hone : env.keyRanges.length - 1 = 1
  · rw [if_pos hone] at hdivisor
    obtain ⟨r, hr⟩ := h.passes.mpr hone.le
    obtain ⟨_, ratio, hratio, _⟩ := hashMixedModeOf_eq_ok.mp hr
    rw [hnc] at hratio
    exact (mixedRatio_eq_some hratio).1 hdivisor
  · rw [if_neg hone] at hdivisor
    have hratio := mixedRatio_eq (show mixedDivisor 1 (env.keyRanges.length - 1) ≠ 0 by omega)
    rw [Nat.cast_one, sub_self, mul_zero, zero_div] at hratio
    have hle := h.passes.mp
      ⟨_, hashMixedModeOf_eq_ok.mpr ⟨hbound, 0, hnc ▸ hratio, zero_le_one, le_rfl, rfl⟩⟩
    omega

/--
**The function is sound for two workers or more**, and for one worker only if no server is on a
machine of its own.

Sound means that keys are hashed for no more such servers than workers and for no others,
without a division by zero, and to a server of the kind the hash says.
-/
theorem mixedModeSound_iff (hw : 1 ≤ w) (hwn : w ≤ env.keyRanges.length)
    (hbound : env.keyRanges.length ≤ bound) (hint : bound < 2 ^ 31) :
    MixedModeSound env w bound key ↔ 2 ≤ w ∨ env.keyRanges.length = w := by
  constructor
  · intro h
    by_contra hnot
    obtain rfl : w = 1 := by omega
    exact not_mixedModeSound_one (by omega) hbound hint h
  · intro hcond
    by_cases hw₂ : 2 ≤ w
    · have hfit : w + (env.keyRanges.length - w) < 2 ^ 31 := by omega
      exact mixedModeSound_of hw hwn hbound hint
        (mixedRatio_eq (mixedDivisor_eq hw₂ hfit).2.ne') (ratio_nonneg hw) (ratio_le_one_iff hw₂ hfit)
    · obtain rfl : w = 1 := by omega
      have hzero : env.keyRanges.length - 1 = 0 := by omega
      have hdivisor : mixedDivisor 1 0 = 1 := mixedDivisor_one (by decide)
      have hratio : mixedRatio 1 (env.keyRanges.length - 1) = some 0 := by
        rw [hzero, mixedRatio_eq (by omega)]
        simp
      exact mixedModeSound_of hw hwn hbound hint hratio le_rfl
        (iff_of_true zero_le_one (by omega))

/-- Two workers, beside a server each, and one more server. -/
theorem mixedModeSound_iff_two :
    let env : KeyEnv := ⟨"mixed", [⟨0, 9⟩, ⟨9, 18⟩, ⟨18, 27⟩], decimal, fun _ => 0, 1, true,
      fun _ => .error .check⟩
    MixedModeSound env 2 101 5 :=
  (mixedModeSound_iff (by decide) (by decide) (by decide) (by decide)).mpr (.inl (by decide))

/-- One worker, beside a server, and two more servers: a key is hashed all the same. -/
theorem two_servers_one_worker_passes : ¬∀ (env : KeyEnv) (w bound key : ℕ), 1 ≤ w →
    w ≤ env.keyRanges.length → env.keyRanges.length ≤ bound → bound < 2 ^ 31 →
    MixedModeSound env w bound key := by
  intro h
  let env : KeyEnv := ⟨"mixed", [⟨0, 9⟩, ⟨9, 18⟩, ⟨18, 27⟩], decimal, fun _ => 0, 1, true,
    fun _ => .error .check⟩
  exact not_mixedModeSound_one (show 1 < env.keyRanges.length by decide) (by decide) (by decide)
    (h env 1 101 5 (by decide) (by decide) (by decide) (by decide))

end DeepInc.Worker
