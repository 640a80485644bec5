import Patchbay.Proofs.Exact
import Patchbay.Unit.Basic

/-! What envelopes keep to, whatever they are told from sample to sample. Both curves move through
the same stages, and each stage bounds where the level may go. -/
namespace Patchbay
open Arithmetic (natural natural_zero natural_one le_iff atLeast_eq)

namespace Envelope

section Switch
variable {α : Type} (e : Envelope α) (i : Input α)

/-- A switch sets nothing but the stage and its factor. -/
theorem exists_switch_eq : ∃ stage factor, e.switch i = { e with stage, factor } := by
  rw [switch]
  split
  · exact ⟨_, _, rfl⟩
  · split
    · exact ⟨_, _, rfl⟩
    · exact ⟨e.stage, e.factor, rfl⟩

@[simp] theorem curve_switch : (e.switch i).curve = e.curve := by
  obtain ⟨_, _, h⟩ := e.exists_switch_eq i
  rw [h]

@[simp] theorem level_switch : (e.switch i).level = e.level := by
  obtain ⟨_, _, h⟩ := e.exists_switch_eq i
  rw [h]

@[simp] theorem held_switch : (e.switch i).held = e.held := by
  obtain ⟨_, _, h⟩ := e.exists_switch_eq i
  rw [h]

/-- A switch leads to attack or release, or changes nothing. -/
theorem switch_cases :
    (e.switch i).stage = .attack ∧ (e.switch i).factor = i.attack.factor ∨
      (e.switch i).stage = .release ∧ (e.switch i).factor = i.release.factor ∨
      e.switch i = e := by
  rw [switch]
  split
  · exact .inl ⟨rfl, rfl⟩
  · split
    · exact .inr (.inl ⟨rfl, rfl⟩)
    · exact .inr (.inr rfl)

end Switch

section Runs
variable {α : Type} [Arithmetic α]

/-- The envelope after so many samples. -/
def after (e : Envelope α) (inputs : Nat → Input α) : Nat → Envelope α
  | 0 => e
  | n + 1 => (e.after inputs n).step (inputs n)

/-- An attack goes on in this sample and ends with it. -/
def EndsAttack (e : Envelope α) (i : Input α) : Prop :=
  (e.switch i).stage = .attack ∧ (e.step i).stage = .decay

/-- Where a held note comes to rest: where it should be now, or should have been when its attack
ended. -/
def resting (e : Envelope α) (i : Input α) : α :=
  match e.curve with
  | .linear => i.sustain
  | .exponential => e.held

/-- The envelope at the end of its attack. -/
def peaked (e : Envelope α) (i : Input α) : Envelope α :=
  match e.curve with
  | .linear => { e with level := natural 1, stage := .decay }
  | .exponential =>
    { e with
      level := natural 1, stage := .decay, held := Arithmetic.atLeast threshold i.sustain,
      factor := i.decay.factor }

variable (e : Envelope α) (i : Input α)

theorem curve_advanceLinear : (e.advanceLinear i).curve = e.curve := by
  rw [advanceLinear]
  split
  · rfl
  · rfl
  all_goals
    extract_lets level
    split <;> rfl

theorem curve_advanceExponential : (e.advanceExponential i).curve = e.curve := by
  rw [advanceExponential]
  split
  · rfl
  · rfl
  all_goals
    extract_lets level
    split <;> rfl

/-- An envelope keeps its curve. -/
theorem curve_after (inputs : Nat → Input α) (n : Nat) : (e.after inputs n).curve = e.curve := by
  induction n with
  | zero => rfl
  | succ n ih =>
    rw [after, step]
    split
    · rw [curve_advanceLinear, curve_switch, ih]
    · rw [curve_advanceExponential, curve_switch, ih]

@[simp] theorem stage_peaked : (e.peaked i).stage = .decay := by
  rw [peaked]
  split <;> rfl

@[simp] theorem level_peaked : (e.peaked i).level = natural 1 := by
  rw [peaked]
  split <;> rfl

end Runs

section Real

/-- The timing of so many samples, none or infinitely many among them, for any way to tell a factor
that is a part of one. -/
structure Timing.Lasts (t : Timing ℝ) (samples : ENNReal) : Prop where
  instant : t.instant = decide (samples = 0)
  slope : samples ≠ 0 → t.slope = samples⁻¹.toReal
  factor : t.factor ∈ Set.Icc 0 1
  factor_zero : samples = 0 → t.factor = 0

/-- Segments of any lengths, and a level between nothing and one. -/
structure Input.Proper (i : Input ℝ) : Prop where
  attack : ∃ samples, i.attack.Lasts samples
  decay : ∃ samples, i.decay.Lasts samples
  sustain : i.sustain ∈ Set.Icc 0 1
  release : ∃ samples, i.release.Lasts samples

/-- Levels between nothing and one, and nothing when no note plays. -/
structure Bounded (e : Envelope ℝ) : Prop where
  level : e.level ∈ Set.Icc 0 1
  factor : e.factor ∈ Set.Icc 0 1
  held : e.held ∈ Set.Icc 0 1
  silent : e.stage = .idle → e.level = 0

/-- What a sample does in each stage, on either curve. -/
inductive Moves (e : Envelope ℝ) (i : Input ℝ) : Envelope ℝ → Prop
  | rest (hstage : e.stage = .idle) : Moves e i e
  | rise {level : ℝ} (hstage : e.stage = .attack) (hlow : e.level ≤ level) (hhigh : level ≤ 1) :
    Moves e i { e with level }
  | peak (hstage : e.stage = .attack) : Moves e i (e.peaked i)
  | fall {level : ℝ} (hstage : e.stage = .decay) (hlow : e.resting i ≤ level)
    (hhigh : level ≤ e.level) : Moves e i { e with level }
  | settle {level : ℝ} (hstage : e.stage = .decay) (hlevel : level = e.resting i) :
    Moves e i { e with level, stage := .sustain }
  | hold {level : ℝ} (hstage : e.stage = .sustain) (hlevel : level = e.resting i) :
    Moves e i { e with level }
  | fade {level : ℝ} (hstage : e.stage = .release) (hlow : 0 ≤ level) (hhigh : level ≤ e.level) :
    Moves e i { e with level }
  | silence (hstage : e.stage = .release) : Moves e i { e with level := 0, stage := .idle }

theorem threshold_eq : (threshold : ℝ) = 1 / 100 := by
  rw [threshold, Arithmetic.ratio, Arithmetic.natural_cast, Arithmetic.natural_cast]
  norm_num

namespace Timing
variable {t : Timing ℝ} {samples : ENNReal}

theorem Lasts.slope_nonneg (h : t.Lasts samples) (hlong : ¬ t.instant = true) : 0 ≤ t.slope := by
  rw [h.instant, decide_eq_true_iff] at hlong
  rw [h.slope hlong]
  exact ENNReal.toReal_nonneg

/-- The timing that is computed for some samples is the timing of so many. -/
theorem lasts_ofSamples {samples : ℝ} (h : 0 < samples) :
    (Timing.ofSamples samples).Lasts (ENNReal.ofReal samples) := by
  have hne : ENNReal.ofReal samples ≠ 0 := (ENNReal.ofReal_pos.mpr h).ne'
  have hslope : (natural 1 : ℝ) / samples = samples⁻¹ := by
    rw [natural_one, one_div]
  refine ⟨?_, fun _ => ?_, ?_, fun hzero => absurd hzero hne⟩
  · show decide (samples ≤ natural 0) = _
    rw [natural_zero, decide_eq_decide]
    exact iff_of_false h.not_ge hne
  · show natural 1 / samples = _
    rw [hslope, ENNReal.toReal_inv, ENNReal.toReal_ofReal h.le]
  · show (threshold : ℝ) ^ (natural 1 / samples) ∈ Set.Icc (0 : ℝ) 1
    rw [hslope, threshold_eq]
    exact ⟨by positivity, Real.rpow_le_one (by norm_num) (by norm_num) (inv_nonneg.mpr h.le)⟩

end Timing

variable {e next : Envelope ℝ} {i : Input ℝ}

namespace Bounded

/-- In a stage where a note plays, only the bounds matter. -/
theorem of_stage_ne (hlevel : e.level ∈ Set.Icc 0 1) (hfactor : e.factor ∈ Set.Icc 0 1)
    (hheld : e.held ∈ Set.Icc 0 1) (hstage : e.stage ≠ .idle) : e.Bounded :=
  ⟨hlevel, hfactor, hheld, fun hidle => absurd hidle hstage⟩

theorem ofCurve (curve : Curve) : (ofCurve curve : Envelope ℝ).Bounded := by
  rw [Envelope.ofCurve, natural_zero, natural_one]
  exact ⟨⟨le_rfl, zero_le_one⟩, ⟨zero_le_one, le_rfl⟩, ⟨le_rfl, zero_le_one⟩, fun _ => rfl⟩

theorem resting (h : e.Bounded) (hi : i.Proper) : e.resting i ∈ Set.Icc 0 1 := by
  rw [Envelope.resting]
  split
  · exact hi.sustain
  · exact h.held

theorem switch (h : e.Bounded) (hi : i.Proper) : (e.switch i).Bounded := by
  obtain ⟨_, hattack⟩ := hi.attack
  obtain ⟨_, hrelease⟩ := hi.release
  have hlevel := e.level_switch i
  have hheld := e.held_switch i
  rcases e.switch_cases i with ⟨hstage, hfactor⟩ | ⟨hstage, hfactor⟩ | hsame
  · exact of_stage_ne (hlevel ▸ h.level) (hfactor ▸ hattack.factor) (hheld ▸ h.held)
      (by simp [hstage])
  · exact of_stage_ne (hlevel ▸ h.level) (hfactor ▸ hrelease.factor) (hheld ▸ h.held)
      (by simp [hstage])
  · exact hsame.symm ▸ h

theorem peaked (h : e.Bounded) (hi : i.Proper) : (e.peaked i).Bounded := by
  obtain ⟨_, hdecay⟩ := hi.decay
  refine of_stage_ne ?_ ?_ ?_ (by simp)
  · rw [level_peaked, natural_one]
    exact ⟨zero_le_one, le_rfl⟩
  · rw [Envelope.peaked]
    split
    · exact h.factor
    · exact hdecay.factor
  · rw [Envelope.peaked]
    split
    · exact h.held
    · dsimp only
      rw [atLeast_eq, threshold_eq]
      exact ⟨le_max_of_le_left (by norm_num), max_le (by norm_num) hi.sustain.2⟩

theorem moves (h : e.Bounded) (hi : i.Proper) (hmoves : e.Moves i next) : next.Bounded := by
  have hresting := h.resting hi
  cases hmoves with
  | rest => exact h
  | rise hstage hlow hhigh =>
    exact of_stage_ne ⟨h.level.1.trans hlow, hhigh⟩ h.factor h.held (by simp [hstage])
  | peak => exact h.peaked hi
  | fall hstage hlow hhigh =>
    exact of_stage_ne ⟨hresting.1.trans hlow, hhigh.trans h.level.2⟩ h.factor h.held
      (by simp [hstage])
  | settle _ hlevel => exact of_stage_ne (hlevel ▸ hresting) h.factor h.held (by simp)
  | hold hstage hlevel =>
    exact of_stage_ne (hlevel ▸ hresting) h.factor h.held (by simp [hstage])
  | fade hstage hlow hhigh =>
    exact of_stage_ne ⟨hlow, hhigh.trans h.level.2⟩ h.factor h.held (by simp [hstage])
  | silence => exact ⟨⟨le_rfl, zero_le_one⟩, h.factor, h.held, fun _ => rfl⟩

theorem moves_advanceLinear (h : e.Bounded) (hi : i.Proper) (hcurve : e.curve = .linear) :
    e.Moves i (e.advanceLinear i) := by
  have hresting : e.resting i = i.sustain := by rw [Envelope.resting, hcurve]
  rw [advanceLinear]
  split
  · next hstage => exact .rest hstage
  · next hstage => exact .hold hstage hresting.symm
  · next hstage =>
    have hpeaked : e.peaked i = { e with level := natural 1, stage := .decay } := by
      rw [Envelope.peaked, hcurve]
    obtain ⟨_, hattack⟩ := hi.attack
    extract_lets level
    have hlow : e.level ≤ level := by
      unfold level
      split
      · exact natural_one.symm ▸ h.level.2
      · next hlong => exact le_add_of_nonneg_right (hattack.slope_nonneg hlong)
    split
    · exact hpeaked ▸ .peak hstage
    · next hhigh =>
      rw [le_iff, natural_one, not_le] at hhigh
      exact .rise hstage hlow hhigh.le
  · next hstage =>
    obtain ⟨_, hdecay⟩ := hi.decay
    extract_lets level
    have hhigh : ¬ level ≤ i.sustain → level ≤ e.level := by
      unfold level
      split
      · exact fun hsettled => absurd le_rfl hsettled
      · next hlong => exact fun _ => sub_le_self _ (hdecay.slope_nonneg hlong)
    split
    · exact .settle hstage hresting.symm
    · next hlow =>
      rw [le_iff] at hlow
      exact .fall hstage (hresting ▸ le_of_not_ge hlow) (hhigh hlow)
  · next hstage =>
    obtain ⟨_, hrelease⟩ := hi.release
    rw [natural_zero]
    extract_lets level
    have hhigh : ¬ level ≤ 0 → level ≤ e.level := by
      unfold level
      split
      · exact fun hsilent => absurd le_rfl hsilent
      · next hlong => exact fun _ => sub_le_self _ (hrelease.slope_nonneg hlong)
    split
    · exact .silence hstage
    · next hlow =>
      rw [le_iff] at hlow
      exact .fade hstage (le_of_not_ge hlow) (hhigh hlow)

theorem moves_advanceExponential (h : e.Bounded) (hcurve : e.curve = .exponential) :
    e.Moves i (e.advanceExponential i) := by
  have hresting : e.resting i = e.held := by rw [Envelope.resting, hcurve]
  have hthreshold : (0 : ℝ) < threshold := by
    rw [threshold_eq]
    norm_num
  have hfading : e.level * e.factor ≤ e.level := mul_le_of_le_one_right h.level.1 h.factor.2
  rw [advanceExponential]
  split
  · next hstage => exact .rest hstage
  · next hstage => exact .hold hstage hresting.symm
  · next hstage =>
    have hpeaked : e.peaked i = { e with
        level := natural 1, stage := .decay, held := Arithmetic.atLeast threshold i.sustain,
        factor := i.decay.factor } := by
      rw [Envelope.peaked, hcurve]
    extract_lets level
    have hlow : e.level ≤ level := by
      unfold level
      rw [natural_one]
      split
      · exact h.level.2
      · have hless := mul_le_of_le_one_right (sub_nonneg.mpr h.level.2) h.factor.2
        linarith
    split
    · exact hpeaked ▸ .peak hstage
    · next hhigh =>
      rw [le_iff, natural_one, not_le] at hhigh
      exact .rise hstage hlow (by linarith)
  · next hstage =>
    extract_lets level
    have hhigh : ¬ level ≤ e.held + threshold → level ≤ e.level := by
      unfold level
      split
      · exact fun hsettled => absurd (le_add_of_nonneg_right hthreshold.le) hsettled
      · exact fun _ => hfading
    split
    · exact .settle hstage hresting.symm
    · next hlow =>
      rw [le_iff] at hlow
      exact .fall hstage (by linarith) (hhigh hlow)
  · next hstage =>
    extract_lets level
    split
    · rw [natural_zero]
      exact .silence hstage
    · next hlow =>
      rw [le_iff, not_le] at hlow
      exact .fade hstage (hthreshold.le.trans hlow.le) hfading

/-- After a switch, a sample is a move of its stage. -/
theorem moves_step (h : e.Bounded) (hi : i.Proper) : (e.switch i).Moves i (e.step i) := by
  have hswitch := h.switch hi
  have hcurve := e.curve_switch i
  rw [step]
  split
  · next hlinear => exact hswitch.moves_advanceLinear hi (hcurve.trans hlinear)
  · next hexponential => exact hswitch.moves_advanceExponential (hcurve.trans hexponential)

theorem step (h : e.Bounded) (hi : i.Proper) : (e.step i).Bounded :=
  (h.switch hi).moves hi (h.moves_step hi)

end Bounded

namespace Moves

/-- A level that is held is where the note comes to rest. -/
theorem level_of_sustain (h : e.Moves i next) (hstage : next.stage = .sustain) :
    next.level = next.resting i := by
  cases h with
  | settle _ hlevel => exact hlevel
  | hold _ hlevel => exact hlevel
  | _ => simp_all

theorem le_level (h : e.Moves i next) (hstage : next.stage = .attack) : e.level ≤ next.level := by
  cases h with
  | rise _ hlow => exact hlow
  | _ => simp_all

theorem level_le (h : e.Moves i next) (hstage : next.stage = .release) :
    next.level ≤ e.level := by
  cases h with
  | fade _ _ hhigh => exact hhigh
  | _ => simp_all

/-- Only the end of an attack changes the level to be held, and nothing else leads to decay and
from there to where it is held. -/
theorem peak_or (h : e.Moves i next) :
    e.stage = .attack ∧ next = e.peaked i ∨
      next.held = e.held ∧ ¬ (e.stage = .attack ∧ next.stage = .decay) ∧
        (next.stage = .decay ∨ next.stage = .sustain → e.stage = .decay ∨ e.stage = .sustain) := by
  cases h with
  | peak hstage => exact .inl ⟨hstage, rfl⟩
  | _ => exact .inr ⟨rfl, by simp_all⟩

end Moves

/-- The level that was asked for when the last attack among so many samples ended, but at least the
threshold. -/
def Latched (e : Envelope ℝ) (inputs : Nat → Input ℝ) (n : Nat) (level : ℝ) : Prop :=
  ∃ k < n, (e.after inputs k).EndsAttack (inputs k) ∧
    (∀ j, k < j → j < n → ¬ (e.after inputs j).EndsAttack (inputs j)) ∧
    level = max threshold (inputs k).sustain

variable {inputs : Nat → Input ℝ}

theorem Bounded.after (h : e.Bounded) (hinputs : ∀ n, (inputs n).Proper) (n : Nat) :
    (e.after inputs n).Bounded := by
  induction n with
  | zero => exact h
  | succ n ih => exact ih.step (hinputs n)

/-- After the attack of an exponential envelope, the level to be held is the one that was fixed
then. -/
theorem latched_after (hinputs : ∀ n, (inputs n).Proper) {n : Nat}
    (hstage : ((ofCurve .exponential).after inputs n).stage = .decay ∨
      ((ofCurve .exponential).after inputs n).stage = .sustain) :
    Latched (ofCurve .exponential) inputs n ((ofCurve .exponential).after inputs n).held := by
  have hbounded := Bounded.ofCurve .exponential
  induction n with
  | zero => simp [Envelope.after, ofCurve] at hstage
  | succ n ih =>
    have hcurve := curve_after (ofCurve .exponential) inputs n
    have hmoves := (hbounded.after hinputs n).moves_step (hinputs n)
    rcases hmoves.peak_or with ⟨hattack, hpeaked⟩ | ⟨hheld, hnone, hbefore⟩
    · refine ⟨n, n.lt_succ_self, ⟨hattack, ?_⟩, fun j hlow hhigh => by omega, ?_⟩
      · rw [hpeaked, stage_peaked]
      · rw [Envelope.after, hpeaked, peaked, curve_switch, hcurve]
        exact atLeast_eq _ _
    · -- Decay and sustain come from one of the two, so no note was started or ended before.
      have hswitched := hbefore hstage
      have hsame : (((ofCurve .exponential).after inputs n).switch (inputs n)) =
          (ofCurve .exponential).after inputs n := by
        rcases switch_cases ((ofCurve .exponential).after inputs n) (inputs n) with
          ⟨h, _⟩ | ⟨h, _⟩ | h
        · simp [h] at hswitched
        · simp [h] at hswitched
        · exact h
      rw [hsame] at hswitched hheld
      obtain ⟨k, hk, hends, hlast, hlevel⟩ := ih hswitched
      refine ⟨k, Nat.lt_succ_of_lt hk, hends, fun j hlow hhigh => ?_, hheld.trans hlevel⟩
      rcases Nat.lt_succ_iff_lt_or_eq.mp hhigh with hhigh | rfl
      · exact hlast j hlow hhigh
      · exact hnone

end Real

end Envelope

namespace SoundUnit
variable {α : Type} [Arithmetic α]

/-- What the signals at its sockets tell an envelope. -/
def heard (sampleRate : α) (signals : List α) : Envelope.Input α :=
  let input (i : Nat) : α := signals.getD i (natural 0)
  envelopeInput sampleRate (input 0) (input 1) (input 2) (input 3) (input 4) (input 5)

theorem process_envelope (sampleRate : α) (e : Envelope α) (signals : List α) :
    (SoundUnit.envelope sampleRate e).process signals =
      (.envelope sampleRate (e.step (heard sampleRate signals)),
        [(e.step (heard sampleRate signals)).level]) := rfl

/-- Signals tell lengths that an envelope can take, at any sample rate. -/
theorem proper_heard {sampleRate : ℝ} (hrate : 0 < sampleRate) {signals : List ℝ}
    (hsustain : signals.getD 4 (natural 0) ∈ Set.Icc 0 1) : (heard sampleRate signals).Proper := by
  have hlasts (duration : ℝ) :
      ∃ samples, (Envelope.Timing.ofDuration sampleRate duration).Lasts samples :=
    ⟨_, Envelope.Timing.lasts_ofSamples (mul_pos (Quantity.toSeconds_pos duration) hrate)⟩
  exact ⟨hlasts _, hlasts _, hsustain, hlasts _⟩

end SoundUnit

namespace Envelope

/-- Whatever an envelope is told, sample after sample: its level stays between nothing and one and
is what is heard, it is nothing when no note plays, a note that is held stays where it should, and
the level goes up in attack and down in release. -/
theorem after_range (curve : Curve) (inputs : Nat → Input ℝ) (hinputs : ∀ n, (inputs n).Proper)
    (n : Nat) :
    let before := (ofCurve curve).after inputs n
    let e := (ofCurve curve).after inputs (n + 1)
    e.level ∈ Set.Icc 0 1 ∧
      (∀ sampleRate signals, let next := before.step (SoundUnit.heard sampleRate signals)
        (SoundUnit.envelope sampleRate before).process signals =
          (.envelope sampleRate next, [next.level])) ∧
      (e.stage = .idle → e.level = 0) ∧
      (e.stage = .sustain → curve = .linear → e.level = (inputs n).sustain) ∧
      (e.stage = .sustain → curve = .exponential →
        Latched (ofCurve curve) inputs (n + 1) e.level) ∧
      (before.stage = .attack → e.stage = .attack → before.level ≤ e.level) ∧
      (before.stage = .release → e.stage = .release → e.level ≤ before.level) := by
  intro before e
  have hfirst := Bounded.ofCurve curve
  have hbounded := hfirst.after hinputs (n + 1)
  have hmoves : (before.switch (inputs n)).Moves (inputs n) e :=
    (hfirst.after hinputs n).moves_step (hinputs n)
  have hcurve : e.curve = curve := curve_after (ofCurve curve) inputs (n + 1)
  have hlevel := level_switch before (inputs n)
  refine ⟨hbounded.level, fun rate signals => SoundUnit.process_envelope rate before signals,
    hbounded.silent, ?_, ?_, ?_, ?_⟩
  · rintro hstage rfl
    rw [hmoves.level_of_sustain hstage, resting, hcurve]
  · rintro hstage rfl
    rw [hmoves.level_of_sustain hstage, resting, hcurve]
    exact latched_after hinputs (.inr hstage)
  · intro _ hstage
    exact hlevel ▸ hmoves.le_level hstage
  · intro _ hstage
    exact hlevel ▸ hmoves.level_le hstage

/-- A gate that is on, segments that take no time, and a level that sinks from one half on. -/
noncomputable def sinking (n : Nat) : Input ℝ :=
  let none : Timing ℝ := ⟨true, natural 0, natural 0⟩
  ⟨true, false, none, none, natural 1 / natural (n + 2), none⟩

private theorem proper_sinking (n : Nat) : (sinking n).Proper := by
  have hlasts : (⟨true, natural 0, natural 0⟩ : Timing ℝ).Lasts 0 := by
    rw [natural_zero]
    exact ⟨by simp, fun h => absurd rfl h, ⟨le_rfl, zero_le_one⟩, fun _ => rfl⟩
  refine ⟨⟨0, hlasts⟩, ⟨0, hlasts⟩, ?_, ⟨0, hlasts⟩⟩
  show (natural 1 / natural (n + 2) : ℝ) ∈ Set.Icc (0 : ℝ) 1
  rw [natural_one, Arithmetic.natural_cast]
  have hn : (1 : ℝ) ≤ ((n + 2 : ℕ) : ℝ) := Nat.one_le_cast.mpr (by omega)
  exact ⟨by positivity, (div_le_one (by positivity)).mpr hn⟩

private theorem stage_sinking : ((ofCurve .exponential).after sinking 2).stage = .sustain := by
  simp [Envelope.after, step, switch, ofCurve, sinking, advanceExponential, Stage.isSilent, le_iff,
    natural_zero, natural_one, threshold_eq, atLeast_eq]

/-- A note whose level sinks while it is held stays where it was when its attack ended. -/
theorem after_range_sinking : (∀ n, (sinking n).Proper) ∧
    Latched (ofCurve .exponential) sinking 2 ((ofCurve .exponential).after sinking 2).level :=
  ⟨proper_sinking, (after_range .exponential sinking proper_sinking 1).2.2.2.2.1 stage_sinking rfl⟩

end Envelope
end Patchbay
