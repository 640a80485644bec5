import Patchbay.Proofs.Unit.Envelope

/-! When the segments of a linear envelope end. A note that is held and then let go passes through
them in just the samples that their lengths take, with a level that is known at each sample. -/
namespace Patchbay.Envelope
open Arithmetic (natural_zero natural_one le_iff)

section
variable {α : Type} [Arithmetic α]

/-- A note is held. -/
def holding (attack decay sustain release : α) : Input α :=
  ⟨true, false, .ofSamples attack, .ofSamples decay, sustain, .ofSamples release⟩

/-- The note was let go. -/
def released (attack decay sustain release : α) : Input α :=
  { holding attack decay sustain release with gate := false }

end

/-- A linear envelope in a stage, at a level. -/
structure On (e : Envelope ℝ) (stage : Stage) (level : ℝ) : Prop where
  curve : e.curve = .linear
  stage : e.stage = stage
  level : e.level = level

variable {e : Envelope ℝ} {i : Input ℝ} {stage : Stage} {level samples : ℝ}

theorem Timing.instant_ofSamples (h : 0 < samples) : (ofSamples samples).instant = false := by
  rw [ofSamples, natural_zero]
  exact decide_eq_false h.not_ge

theorem Timing.slope_ofSamples (samples : ℝ) : (ofSamples samples).slope = 1 / samples := by
  rw [ofSamples, natural_one]

namespace On

/-- A gate that is on starts a note where none plays. -/
theorem switch_on (h : e.On stage level) (hgate : i.gate = true) (htrigger : i.trigger = false) :
    (e.switch i).On (if stage.isSilent then .attack else stage) level := by
  refine ⟨(curve_switch e i).trans h.curve, ?_, (level_switch e i).trans h.level⟩
  rw [switch, hgate, htrigger, h.stage]
  cases stage <;> simp [Stage.isSilent, h.stage]

/-- A gate that is off ends a note that plays. -/
theorem switch_off (h : e.On stage level) (hgate : i.gate = false) (htrigger : i.trigger = false) :
    (e.switch i).On (if stage.isSilent then stage else .release) level := by
  refine ⟨(curve_switch e i).trans h.curve, ?_, (level_switch e i).trans h.level⟩
  rw [switch, hgate, htrigger, h.stage]
  cases stage <;> simp [Stage.isSilent, h.stage]

theorem step_eq (h : (e.switch i).On stage level) : e.step i = (e.switch i).advanceLinear i := by
  rw [step, ← curve_switch e i, h.curve]

/-- In attack the level rises by a part of one, but not above it. -/
theorem rise (h : e.On .attack level) (hattack : i.attack = .ofSamples samples)
    (hpos : 0 < samples) :
    (e.advanceLinear i).On (if level + 1 / samples < 1 then .attack else .decay)
      (min (level + 1 / samples) 1) := by
  rw [advanceLinear, h.stage]
  simp only [hattack, Timing.instant_ofSamples hpos, Timing.slope_ofSamples, h.level, natural_one,
    le_iff, Bool.false_eq_true, if_false]
  split
  · next hpeak =>
    rw [if_neg hpeak.not_gt, min_eq_right hpeak]
    exact ⟨h.curve, rfl, rfl⟩
  · next hlow =>
    rw [not_le] at hlow
    rw [if_pos hlow, min_eq_left hlow.le]
    exact ⟨h.curve, rfl, rfl⟩

/-- In decay the level falls by a part of one, but not below where it is held. -/
theorem fall (h : e.On .decay level) (hdecay : i.decay = .ofSamples samples)
    (hpos : 0 < samples) :
    (e.advanceLinear i).On (if i.sustain < level - 1 / samples then .decay else .sustain)
      (max (level - 1 / samples) i.sustain) := by
  rw [advanceLinear, h.stage]
  simp only [hdecay, Timing.instant_ofSamples hpos, Timing.slope_ofSamples, h.level, le_iff,
    Bool.false_eq_true, if_false]
  split
  · next hsettled =>
    rw [if_neg hsettled.not_gt, max_eq_right hsettled]
    exact ⟨h.curve, rfl, rfl⟩
  · next hhigh =>
    rw [not_le] at hhigh
    rw [if_pos hhigh, max_eq_left hhigh.le]
    exact ⟨h.curve, rfl, rfl⟩

/-- In release the level falls by a part of one, but not below nothing. -/
theorem fade (h : e.On .release level) (hrelease : i.release = .ofSamples samples)
    (hpos : 0 < samples) :
    (e.advanceLinear i).On (if 0 < level - 1 / samples then .release else .idle)
      (max (level - 1 / samples) 0) := by
  rw [advanceLinear, h.stage]
  simp only [hrelease, Timing.instant_ofSamples hpos, Timing.slope_ofSamples, h.level,
    natural_zero, le_iff, Bool.false_eq_true, if_false]
  split
  · next hsilent =>
    rw [if_neg hsilent.not_gt, max_eq_right hsilent]
    exact ⟨h.curve, rfl, rfl⟩
  · next hhigh =>
    rw [not_le] at hhigh
    rw [if_pos hhigh, max_eq_left hhigh.le]
    exact ⟨h.curve, rfl, rfl⟩

theorem hold (h : e.On .sustain level) : (e.advanceLinear i).On .sustain i.sustain := by
  rw [advanceLinear, h.stage]
  exact ⟨h.curve, rfl, rfl⟩

theorem rest (h : e.On .idle level) : (e.advanceLinear i).On .idle level := by
  rw [advanceLinear, h.stage]
  exact h

end On

section Held
variable {a d r s : ℝ}

private theorem next_sum (x : ℝ) (k : Nat) : k / x + 1 / x = (k + 1 : ℕ) / x := by
  push_cast
  ring

/-- During the attack each sample adds its part. -/
theorem On.attack (h : e.On .idle 0) (ha : 0 < a) {k : Nat} (hk : k < ⌈a⌉₊) :
    ((e.after (fun _ => holding a d s r) k).switch (holding a d s r)).On .attack (k / a) := by
  -- Told after the switch, since before the first sample the envelope is not in attack yet.
  induction k with
  | zero =>
    rw [Nat.cast_zero, zero_div]
    exact h.switch_on rfl rfl
  | succ k ih =>
    have hbefore := ih (Nat.lt_of_succ_lt hk)
    have hlow : ((k + 1 : ℕ) : ℝ) / a < 1 := (div_lt_one ha).mpr (Nat.lt_ceil.mp hk)
    have hrise := hbefore.rise (i := holding a d s r) rfl ha
    rw [next_sum, if_pos hlow, min_eq_left hlow.le, ← hbefore.step_eq] at hrise
    exact hrise.switch_on rfl rfl

/-- The attack ends with the sample that would go beyond one. -/
theorem On.peak (h : e.On .idle 0) (ha : 0 < a) :
    (e.after (fun _ => holding a d s r) ⌈a⌉₊).On .decay 1 := by
  obtain ⟨k, hk⟩ := Nat.exists_eq_add_one.mpr (Nat.ceil_pos.mpr ha)
  have hbefore := h.attack (d := d) (r := r) (s := s) (k := k) ha (by omega)
  have hhigh : 1 ≤ ((k + 1 : ℕ) : ℝ) / a := (one_le_div ha).mpr (hk ▸ Nat.le_ceil a)
  have hrise := hbefore.rise (i := holding a d s r) rfl ha
  rw [next_sum, if_neg hhigh.not_gt, min_eq_right hhigh, ← hbefore.step_eq] at hrise
  rwa [hk]

private theorem lt_ceil_iff {x floor top : ℝ} (hx : 0 < x) (j : Nat) :
    j < ⌈(top - floor) * x⌉₊ ↔ floor < top - j / x := by
  rw [Nat.lt_ceil, ← div_lt_iff₀ hx, lt_sub_comm]

private theorem sub_next (top x : ℝ) (j : Nat) : top - j / x - 1 / x = top - (j + 1 : ℕ) / x := by
  push_cast
  ring

/-- A stage that takes a part off the level in each sample and then gives way to another. -/
structure Falls (i : Input ℝ) (stage next : Stage) (x floor : ℝ) : Prop where
  switch {e : Envelope ℝ} {level : ℝ} : e.On stage level → (e.switch i).On stage level
  advance {e : Envelope ℝ} {level : ℝ} : e.On stage level →
    (e.advanceLinear i).On (if floor < level - 1 / x then stage else next)
      (max (level - 1 / x) floor)

variable {next : Stage} {x floor top : ℝ}

namespace Falls

/-- Until the level would be too low, each sample takes its part. -/
theorem on_stage (hfalls : Falls i stage next x floor) (hx : 0 < x)
    (h : (e.switch i).On stage top) {j : Nat} (hj : j < ⌈(top - floor) * x⌉₊) :
    ((e.after (fun _ => i) j).switch i).On stage (top - j / x) := by
  induction j with
  | zero =>
    rw [Nat.cast_zero, zero_div, sub_zero]
    exact h
  | succ j ih =>
    have hbefore := ih (Nat.lt_of_succ_lt hj)
    have hhigh := (lt_ceil_iff hx (j + 1)).mp hj
    have hfall := hfalls.advance hbefore
    rw [sub_next, if_pos hhigh, max_eq_left hhigh.le, ← hbefore.step_eq] at hfall
    exact hfalls.switch hfall

/-- The stage ends with the sample that would bring the level too low. -/
theorem on_next (hfalls : Falls i stage next x floor) (hx : 0 < x)
    (h : (e.switch i).On stage top) (hpos : 0 < ⌈(top - floor) * x⌉₊) :
    (e.after (fun _ => i) ⌈(top - floor) * x⌉₊).On next floor := by
  obtain ⟨j, hj⟩ := Nat.exists_eq_add_one.mpr hpos
  have hbefore := hfalls.on_stage hx h (j := j) (by omega)
  have hlow : ¬ floor < top - ((j + 1 : ℕ) : ℝ) / x :=
    fun hlt => absurd ((lt_ceil_iff hx (j + 1)).mpr hlt) (by omega)
  have hfall := hfalls.advance hbefore
  rw [sub_next, if_neg hlow, max_eq_right (not_lt.mp hlow), ← hbefore.step_eq] at hfall
  rwa [hj]

theorem decay (hd : 0 < d) : Falls (holding a d s r) .decay .sustain d s :=
  ⟨fun h => h.switch_on rfl rfl, fun h => h.fall (i := holding a d s r) rfl hd⟩

theorem release (hr : 0 < r) : Falls (released a d s r) .release .idle r 0 :=
  ⟨fun h => h.switch_off rfl rfl, fun h => h.fade (i := released a d s r) rfl hr⟩

end Falls

/-- What holds after some samples and is kept by each holds from then on. -/
private theorem after_of_le {P : Envelope ℝ → Prop} {count j : Nat}
    (hkeep : ∀ e, P e → P (e.step i)) (h : P (e.after (fun _ => i) count)) (hj : count ≤ j) :
    P (e.after (fun _ => i) j) := by
  induction j, hj using Nat.le_induction with
  | base => exact h
  | succ j _ ih => exact hkeep _ ih

private theorem after_add (m n : Nat) :
    e.after (fun _ => i) (m + n) = (e.after (fun _ => i) m).after (fun _ => i) n := by
  induction n with
  | zero => rfl
  | succ n ih => exact congrArg (·.step i) ih

theorem On.stay (h : e.On .sustain s) : (e.step (holding a d s r)).On .sustain s := by
  have hswitch := h.switch_on (i := holding a d s r) rfl rfl
  rw [hswitch.step_eq]
  exact hswitch.hold

theorem On.silent (h : e.On .idle 0) : (e.step (released a d s r)).On .idle 0 := by
  have hswitch := h.switch_off (i := released a d s r) rfl rfl
  rw [hswitch.step_eq]
  exact hswitch.rest

/-- While a gate is on, a note plays after each sample. -/
theorem isSilent_step_holding (hcurve : e.curve = .linear) (ha : 0 < a) (hd : 0 < d) :
    (e.step (holding a d s r)).stage.isSilent = false := by
  have hon : e.On e.stage e.level := ⟨hcurve, rfl, rfl⟩
  have hswitch := hon.switch_on (i := holding a d s r) rfl rfl
  rw [hswitch.step_eq]
  have hattack (h : (e.switch (holding a d s r)).On .attack e.level) :
      ((e.switch (holding a d s r)).advanceLinear (holding a d s r)).stage.isSilent = false := by
    rw [(h.rise (i := holding a d s r) rfl ha).stage]
    split <;> rfl
  generalize e.stage = stage at hswitch
  cases stage with
  | idle => exact hattack hswitch
  | attack => exact hattack hswitch
  | release => exact hattack hswitch
  | decay =>
    have hdecay : (e.switch (holding a d s r)).On .decay e.level := hswitch
    rw [(hdecay.fall (i := holding a d s r) rfl hd).stage]
    split <;> rfl
  | sustain =>
    have hsustain : (e.switch (holding a d s r)).On .sustain e.level := hswitch
    rw [hsustain.hold.stage]
    rfl

/-- A held note that is heard is in release as soon as it is let go. -/
theorem On.let_go (h : e.On .idle 0) (ha : 0 < a) (hd : 0 < d) {k : Nat}
    (hheard : 0 < (e.after (fun _ => holding a d s r) k).level) :
    ((e.after (fun _ => holding a d s r) k).switch (released a d s r)).On .release
      (e.after (fun _ => holding a d s r) k).level := by
  cases k with
  | zero => exact absurd h.level hheard.ne'
  | succ k =>
    have hcurve (n : Nat) : (e.after (fun _ => holding a d s r) n).curve = .linear :=
      (curve_after e _ n).trans h.curve
    have hon : On (e.after (fun _ => holding a d s r) (k + 1)) _ _ := ⟨hcurve (k + 1), rfl, rfl⟩
    have hswitch := hon.switch_off (i := released a d s r) rfl rfl
    have hplays : (e.after (fun _ => holding a d s r) (k + 1)).stage.isSilent = false :=
      isSilent_step_holding (hcurve k) ha hd
    rwa [hplays] at hswitch

/-- A decay from one ends with the first sample that would go below the level to be held. -/
theorem On.decays (h : e.On .decay 1) (hd : 0 < d) (hs : s < 1) :
    ∃ last, IsLeast {j : Nat | 1 ≤ j ∧ 1 - j / d ≤ s} last ∧
      (∀ j < last, (e.after (fun _ => holding a d s r) j).level = 1 - j / d) ∧
      ∀ j, last ≤ j → (e.after (fun _ => holding a d s r) j).On .sustain s := by
  have hfalls : Falls (holding a d s r) .decay .sustain d s := .decay hd
  have hpos : 0 < ⌈(1 - s) * d⌉₊ := Nat.ceil_pos.mpr (mul_pos (sub_pos.mpr hs) hd)
  have hreached (j : Nat) : 1 - j / d ≤ s ↔ ⌈(1 - s) * d⌉₊ ≤ j := by
    rw [← not_lt, ← lt_ceil_iff hd, not_lt]
  refine ⟨⌈(1 - s) * d⌉₊, ⟨⟨hpos, (hreached _).mpr le_rfl⟩, fun j hj => (hreached j).mp hj.2⟩,
    fun j hj => ?_, fun j hj => ?_⟩
  · rw [← level_switch _ (holding a d s r)]
    exact (hfalls.on_stage hd (hfalls.switch h) hj).level
  · exact after_of_le (P := fun e => e.On .sustain s) (fun _ h => h.stay)
      (hfalls.on_next hd (hfalls.switch h) hpos) hj

/-- A release ends with the first sample that would go below nothing. -/
theorem On.fades (h : (e.switch (released a d s r)).On .release level) (hr : 0 < r)
    (hpos : 0 < level) :
    let last := max 1 ⌈level * r⌉₊
    (∀ i < last, (e.after (fun _ => released a d s r) i).level = level - i / r) ∧
      ∀ i, last ≤ i → (e.after (fun _ => released a d s r) i).On .idle 0 := by
  have hfalls : Falls (released a d s r) .release .idle r 0 := .release hr
  have hcount : 0 < ⌈(level - 0) * r⌉₊ := by
    rw [sub_zero]
    exact Nat.ceil_pos.mpr (mul_pos hpos hr)
  have hlast : max 1 ⌈level * r⌉₊ = ⌈(level - 0) * r⌉₊ := by
    rw [sub_zero] at hcount ⊢
    exact max_eq_right hcount
  dsimp only
  rw [hlast]
  constructor
  · intro i hi
    rw [← level_switch _ (released a d s r)]
    exact (hfalls.on_stage hr h hi).level
  · intro i hi
    exact after_of_le (P := fun e => e.On .idle 0) (fun _ h => h.silent)
      (hfalls.on_next hr h hcount) hi

/-- A held note rises to one, falls to where it is held, and stays there. As soon as it is let go,
it falls to nothing from wherever it is. Each level and the sample at which each segment ends are
those of straight lines of the given lengths. -/
theorem linear_timing (ha : 0 < a) (hd : 0 < d) (hr : 0 < r) (hs : s ∈ Set.Ico 0 1)
    (hcurve : e.curve = .linear) (hstage : e.stage = .idle) (hlevel : e.level = 0) :
    let held (k : Nat) := e.after (fun _ => holding a d s r) k
    let gone (k i : Nat) := (held k).after (fun _ => released a d s r) i
    (∀ k < ⌈a⌉₊, (held k).level = k / a) ∧
      ((held ⌈a⌉₊).level = 1 ∧ (held ⌈a⌉₊).stage = .decay) ∧
      (∃ last, IsLeast {j : Nat | 1 ≤ j ∧ 1 - j / d ≤ s} last ∧
        (∀ j < last, (held (⌈a⌉₊ + j)).level = 1 - j / d) ∧
        ∀ j, last ≤ j →
          (held (⌈a⌉₊ + j)).level = s ∧ (held (⌈a⌉₊ + j)).stage = .sustain) ∧
      ∀ k, 0 < (held k).level →
        let level := (held k).level
        let last := max 1 ⌈level * r⌉₊
        (∀ i < last, (gone k i).level = level - i / r) ∧
          ∀ i, last ≤ i → (gone k i).level = 0 ∧ (gone k i).stage = .idle := by
  intro held gone
  have hidle : e.On .idle 0 := ⟨hcurve, hstage, hlevel⟩
  have hpeak : (held ⌈a⌉₊).On .decay 1 := hidle.peak ha
  have hparts (j : Nat) : held (⌈a⌉₊ + j) = (held ⌈a⌉₊).after (fun _ => holding a d s r) j :=
    after_add _ j
  refine ⟨fun k hk => ?_, ⟨hpeak.level, hpeak.stage⟩, ?_, fun k hheard => ?_⟩
  · rw [← level_switch (held k) (holding a d s r)]
    exact (hidle.attack ha hk).level
  · obtain ⟨last, hleast, hbefore, hthen⟩ := hpeak.decays (a := a) (r := r) hd hs.2
    simp only [hparts]
    exact ⟨last, hleast, hbefore, fun j hj => ⟨(hthen j hj).level, (hthen j hj).stage⟩⟩
  · obtain ⟨hbefore, hthen⟩ := (hidle.let_go ha hd hheard).fades hr hheard
    exact ⟨hbefore, fun i hi => ⟨(hthen i hi).level, (hthen i hi).stage⟩⟩

/-- An attack of two samples and a half ends with the third sample; from there a release of three
samples ends with the third as well. -/
theorem linear_timing_short :
    let held (k : Nat) : Envelope ℝ :=
      (ofCurve .linear).after (fun _ => holding (5 / 2) 4 (1 / 2) 3) k
    let gone (i : Nat) := (held 3).after (fun _ => released (5 / 2) 4 (1 / 2) 3) i
    (held 2).level = 4 / 5 ∧ (held 3).level = 1 ∧ (held 3).stage = .decay ∧
      (gone 2).level = 1 / 3 ∧ (gone 3).level = 0 ∧ (gone 3).stage = .idle := by
  intro held gone
  have hceil : ⌈(5 / 2 : ℝ)⌉₊ = 3 := by
    rw [Nat.ceil_eq_iff (by decide)]
    norm_num
  obtain ⟨hattack, hpeak, _, hgone⟩ :=
    linear_timing (a := 5 / 2) (d := 4) (r := 3) (s := 1 / 2) (e := ofCurve .linear) (by norm_num)
      (by norm_num) (by norm_num) (by norm_num) rfl rfl natural_zero
  rw [hceil] at hattack hpeak
  have hlast : max 1 ⌈(1 : ℝ) * 3⌉₊ = 3 := by norm_num
  have hrelease := hgone 3 (one_pos.trans_eq hpeak.1.symm)
  dsimp only at hrelease
  rw [hpeak.1, hlast] at hrelease
  refine ⟨?_, hpeak.1, hpeak.2, ?_, hrelease.2 3 le_rfl⟩
  · rw [hattack 2 (by decide)]
    norm_num
  · rw [hrelease.1 2 (by decide)]
    norm_num

end Held

end Patchbay.Envelope
