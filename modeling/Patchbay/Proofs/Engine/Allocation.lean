import Patchbay.Engine.Voices

/-! Notes and voices after any starts and stops: the table of notes and the voices tell the same, and
a note without a voice takes the one that was left alone longest. -/
namespace Patchbay.Voices
variable {v v' : Voices} {note place : Nat}

/-- What is asked of the voices. -/
inductive Event where
  | assign (note : Nat)
  | release (note : Nat)
  | releaseAll

/-- The voices behind an event. -/
def after (v : Voices) : Event → Voices
  | .assign note => (v.assign note).1
  | .release note => (v.release note).1
  | .releaseAll => v.releaseAll

/-- The voices behind one event after another. -/
def afterAll (v : Voices) (events : List Event) : Voices := events.foldl after v

/-- The note that a voice was last on. -/
def noteOf? (v : Voices) (place : Nat) : Option Nat := v.voices[place]?.bind Voice.note

/-- A note is held by the one voice that is on it. Every voice that plays is held so, and no two of
them started at the same time. -/
structure Consistent (v : Voices) : Prop where
  holder : ∀ note place, v.holder? note = some place ↔ v.noteOf? place = some note
  playing : ∀ (place : Nat) (voice : Voice), v.voices[place]? = some voice → voice.active = true →
    ∃ note, voice.note = some note ∧ v.holder? note = some place
  changed_le : ∀ (place : Nat) (voice : Voice), v.voices[place]? = some voice →
    voice.changed ≤ v.clock
  apart : ∀ (i j : Nat) (a b : Voice), v.voices[i]? = some a → v.voices[j]? = some b →
    a.active = true → b.active = true → a.changed = b.changed → i = j

/-- The first voice that was left alone longest among the idle ones, or among all if none is
idle. -/
structure LeftAlone (voices : List Voice) (place : Nat) (voice : Voice) : Prop where
  there : voices[place]? = some voice
  idle : voice.active = true → ∀ other ∈ voices, other.active = true
  longest : ∀ (i : Nat) (other : Voice), voices[i]? = some other → other.active = voice.active →
    voice.changed ≤ other.changed ∧ (other.changed = voice.changed → place ≤ i)

/-- A note has started on a voice. It stays on the voice that held it, and otherwise takes the one
left alone longest from the note that this was on. -/
structure Starts (v : Voices) (note : Nat) (v' : Voices) (place : Nat) : Prop where
  lt : place < v.voices.length
  voices : v'.voices = v.voices.set place ⟨true, v.clock + 1, some note⟩
  clock : v'.clock = v.clock + 1
  holder : ∀ other, v'.holder? other =
    if other = note then some place
    else if v.noteOf? place = some other then none else v.holder? other
  kept : ∀ held, v.holder? note = some held → place = held
  taken : v.holder? note = none → ∃ voice, LeftAlone v.voices place voice

/-- A note has stopped on the voice that played it, if there was one. -/
structure Stops (v : Voices) (note : Nat) (v' : Voices) (stopped : Option Nat) : Prop where
  played : ∀ place, stopped = some place ↔
    ∃ voice, v.voices[place]? = some voice ∧ voice.active = true ∧ voice.note = some note
  found : ∀ place, stopped = some place → v'.clock = v.clock + 1 ∧ v'.voices =
    v.voices.modify place fun voice => { voice with active := false, changed := v.clock + 1 }
  nobody : stopped = none → v' = v
  holder : ∀ other, v'.holder? other = v.holder? other

/-- All voices have stopped, and no note has one. -/
structure Silenced (v v' : Voices) : Prop where
  voices : v'.voices = v.voices.map fun _ => ⟨false, v.clock + 1, none⟩
  clock : v'.clock = v.clock + 1
  holder : ∀ note, v'.holder? note = none

/-- The voices are consistent, and start and stop notes as they should. -/
structure Sound (v : Voices) : Prop where
  consistent : v.Consistent
  assign : ∀ note, Starts v (min note highestNote) (v.assign note).1 (v.assign note).2
  release : ∀ note, Stops v (min note highestNote) (v.release note).1 (v.release note).2
  releaseAll : Silenced v v.releaseAll

private theorem not_preferred_self (a : Voice) : preferred a a = false := by
  rw [preferred, if_pos rfl]
  exact decide_eq_false (Nat.lt_irrefl _)

private theorem not_preferred_of_preferred {a b : Voice} (h : preferred a b = true) :
    preferred b a = false := by
  rw [preferred] at h ⊢
  by_cases hs : a.active = b.active
  · rw [if_pos hs, decide_eq_true_eq] at h
    rw [if_pos hs.symm]
    exact decide_eq_false (Nat.lt_asymm h)
  · rw [if_neg hs] at h
    rw [if_neg fun he => hs he.symm]
    cases ha : a.active with
    | false => rfl
    | true => exact absurd (ha.trans h.symm) hs

/-- Not to be preferred is an order. -/
private theorem not_preferred_trans {a b c : Voice} (hab : preferred a b = false)
    (hbc : preferred b c = false) : preferred a c = false := by
  rw [preferred] at hab hbc ⊢
  cases ha : a.active <;> cases hb : b.active <;> cases hc : c.active <;>
    simp only [ha, hb, hc, if_true, Bool.false_eq_true, Bool.true_eq_false, if_false,
      decide_eq_false_iff_not] at hab hbc ⊢
  all_goals omega

private theorem not_preferred_longestIdle {l : List Voice} {i : Fin l.length}
    (h : longestIdle l = some i) {j : Nat} {other : Voice} (hj : l[j]? = some other) :
    preferred other (l.get i) = false ∧ (j < i → preferred (l.get i) other = true) := by
  induction l generalizing j with
  | nil => exact i.elim0
  | cons a rest ih =>
    rw [longestIdle] at h
    cases hr : longestIdle rest with
    | none =>
      -- Without a choice among the rest there is no rest.
      rw [hr] at h
      cases h
      have hrest : ¬ 0 < rest.length := by
        intro hpos
        obtain ⟨k, hk⟩ := longestIdle_isSome hpos
        rw [hr] at hk
        cases hk
      cases j with
      | zero =>
        cases hj
        exact ⟨not_preferred_self other, fun hlt => absurd hlt (Nat.lt_irrefl 0)⟩
      | succ j =>
        have hlt := Nat.lt_of_succ_lt_succ (List.getElem?_eq_some_iff.mp hj).1
        exact absurd (Nat.zero_lt_of_lt hlt) hrest
    | some k =>
      rw [hr] at h
      dsimp only at h
      cases hp : preferred rest[k] a with
      | true =>
        rw [hp, if_pos rfl] at h
        cases h
        cases j with
        | zero =>
          cases hj
          exact ⟨not_preferred_of_preferred hp, fun _ => hp⟩
        | succ j =>
          obtain ⟨hnot, hfirst⟩ := ih hr hj
          exact ⟨hnot, fun hlt => hfirst (Nat.lt_of_succ_lt_succ hlt)⟩
      | false =>
        rw [hp, if_neg Bool.false_ne_true] at h
        cases h
        cases j with
        | zero =>
          cases hj
          exact ⟨not_preferred_self other, fun hlt => absurd hlt (Nat.lt_irrefl 0)⟩
        | succ j =>
          obtain ⟨hnot, _⟩ := ih hr hj
          exact ⟨not_preferred_trans hnot hp, fun hlt => absurd hlt (Nat.not_lt_zero _)⟩

theorem leftAlone_longestIdle {l : List Voice} {i : Fin l.length} (h : longestIdle l = some i) :
    LeftAlone l i (l.get i) := by
  refine ⟨List.getElem?_eq_getElem i.isLt, fun hactive other hm => ?_, fun j other hj hsame => ?_⟩
  · obtain ⟨j, hj⟩ := List.getElem?_of_mem hm
    have hnot := (not_preferred_longestIdle h hj).1
    rw [preferred] at hnot
    split at hnot
    · next hs => exact hs.trans hactive
    · exact absurd (hnot.symm.trans hactive) Bool.false_ne_true
  · obtain ⟨hnot, hfirst⟩ := not_preferred_longestIdle h hj
    rw [preferred, if_pos hsame, decide_eq_false_iff_not, Nat.not_lt] at hnot
    refine ⟨hnot, fun heq => Nat.le_of_not_lt fun hlt => ?_⟩
    have hless := hfirst hlt
    rw [preferred, if_pos hsame.symm, decide_eq_true_eq] at hless
    omega

theorem holder?_nobody {voices : List Voice} {clock : Nat} {hlt} (note : Nat) :
    (⟨voices, clock, .replicate _ none, hlt⟩ : Voices).holder? note = none := by
  rw [holder?, Vector.getElem?_replicate]
  split
  · rfl
  · rfl

theorem holder?_play (v : Voices) (place note other : Nat) :
    (v.play place note).holder? other = v.holder? other := rfl

theorem holder?_holdersWithout (v : Voices) (place : Fin v.voices.length) (other : Nat) :
    (v.holdersWithout place)[other]?.join =
      if v.noteOf? place = some other then none else v.holder? other := by
  have hnote : v.noteOf? place = v.voices[place].note := by
    rw [noteOf?, List.getElem?_eq_getElem place.isLt]
    rfl
  rw [hnote, holdersWithout]
  split
  · next old hold =>
    rw [hold, Vector.getElem?_setIfInBounds]
    by_cases heq : old = other
    · subst heq
      rw [if_pos rfl, if_pos rfl]
      split
      · rfl
      · rfl
    · rw [if_neg heq, if_neg fun he => heq (Option.some.inj he)]
      rfl
  · next hold =>
    rw [hold, if_neg (by simp)]
    rfl

theorem holder?_hand (v : Voices) (place : Fin v.voices.length) (hn : note ≤ highestNote)
    (other : Nat) : (v.hand place note).holder? other =
      if other = note then some place.val
      else if v.noteOf? place = some other then none else v.holder? other := by
  rw [holder?, hand]
  dsimp only
  rw [Vector.getElem?_setIfInBounds]
  by_cases heq : note = other
  · subst heq
    rw [if_pos rfl, if_pos rfl, if_pos (Nat.lt_succ_of_le hn)]
    rfl
  · rw [if_neg heq, if_neg fun he => heq he.symm, holder?_holdersWithout]

namespace Consistent
variable (h : v.Consistent)
include h

/-- A note starts on a voice as it should. -/
theorem starts (hpos : 0 < v.voices.length) (note : Nat) :
    Starts v (min note highestNote) (v.assign note).1 (v.assign note).2 := by
  have hn : min note highestNote ≤ highestNote := Nat.min_le_right _ _
  rw [assign]
  generalize min note highestNote = note at hn
  split
  · next held hheld =>
    have hnote := (h.holder note held).mp hheld
    refine ⟨holder?_lt hheld, rfl, rfl, fun other => ?_, fun other hother => ?_, fun hnone => ?_⟩
    · rw [holder?_play, hnote]
      by_cases heq : other = note
      · rw [if_pos heq, heq, hheld]
      · rw [if_neg heq, if_neg fun he => heq (Option.some.inj he).symm]
    · exact Option.some.inj (hheld.symm.trans hother)
    · rw [hheld] at hnone
      cases hnone
  · next hheld =>
    obtain ⟨i, hi⟩ := longestIdle_isSome hpos
    rw [hi]
    refine ⟨i.isLt, rfl, rfl, fun other => ?_, fun other hother => ?_, fun _ => ?_⟩
    · exact holder?_hand v i hn other
    · rw [hheld] at hother
      cases hother
    · exact ⟨_, leftAlone_longestIdle hi⟩

/-- A note stops as it should. -/
theorem stops (note : Nat) :
    Stops v (min note highestNote) (v.release note).1 (v.release note).2 := by
  rw [release]
  generalize min note highestNote = note
  -- A voice that plays the note is the one that holds it.
  have hholds : ∀ (place : Nat) (voice : Voice), v.voices[place]? = some voice →
      voice.note = some note → v.holder? note = some place := by
    intro place voice hvoice hnote
    refine (h.holder note place).mpr ?_
    rw [noteOf?, hvoice, Option.bind_some, hnote]
  split
  · next hheld =>
    refine ⟨fun place => ⟨fun hs => (by cases hs), ?_⟩, fun _ hs => (by cases hs),
      fun _ => rfl, fun _ => rfl⟩
    rintro ⟨voice, hvoice, _, hnote⟩
    rw [hheld] at hholds
    exact absurd (hholds place voice hvoice hnote) (by simp)
  · next held hheld =>
    obtain ⟨voice, hvoice, hnote⟩ := Option.bind_eq_some_iff.mp ((h.holder note held).mp hheld)
    rw [hvoice, Option.any_some]
    cases hactive : voice.active with
    | true =>
      refine ⟨fun place => ⟨?_, ?_⟩, ?_, fun hs => (by cases hs), fun _ => rfl⟩
      · rintro ⟨⟩
        exact ⟨voice, hvoice, hactive, hnote⟩
      · rintro ⟨voice', hvoice', _, hnote'⟩
        exact hheld.symm.trans (hholds place voice' hvoice' hnote')
      · rintro place ⟨⟩
        exact ⟨rfl, rfl⟩
    | false =>
      refine ⟨fun place => ⟨fun hs => (by cases hs), ?_⟩, fun _ hs => (by cases hs),
        fun _ => rfl, fun _ => rfl⟩
      rintro ⟨voice', hvoice', hactive', hnote'⟩
      have hplace := hheld.symm.trans (hholds place voice' hvoice' hnote')
      obtain rfl := Option.some.inj hplace
      rw [hvoice] at hvoice'
      cases hvoice'
      exact absurd (hactive.symm.trans hactive') Bool.false_ne_true

end Consistent

/-- Voices that are idle and have no note are consistent with a table without voices. -/
private theorem consistent_of_silent (hidle : ∀ (place : Nat) (voice : Voice),
      v.voices[place]? = some voice →
        voice.active = false ∧ voice.note = none ∧ voice.changed ≤ v.clock)
    (hnobody : ∀ note, v.holder? note = none) : v.Consistent := by
  have playing : ∀ (place : Nat) (voice : Voice), v.voices[place]? = some voice →
      voice.active = true → False := by
    intro place voice hvoice hactive
    exact absurd ((hidle place voice hvoice).1.symm.trans hactive) Bool.false_ne_true
  refine ⟨fun note place => ?_, ?_, ?_, ?_⟩
  · rw [hnobody note]
    constructor
    · intro hs
      cases hs
    · intro hnote
      obtain ⟨voice, hvoice, hnote⟩ := Option.bind_eq_some_iff.mp hnote
      rw [(hidle place voice hvoice).2.1] at hnote
      cases hnote
  · intro place voice hvoice hactive
    exact (playing place voice hvoice hactive).elim
  · intro place voice hvoice
    exact (hidle place voice hvoice).2.2
  · intro i j a b ha _ hactive
    exact (playing i a ha hactive).elim

theorem consistent_ofCount (count : Nat) : (ofCount count).Consistent := by
  refine consistent_of_silent (fun place voice hvoice => ?_) fun note => ?_
  · obtain ⟨_, rfl⟩ := List.mem_replicate.mp (List.mem_of_getElem? hvoice)
    exact ⟨rfl, rfl, Nat.le_refl _⟩
  · exact holder?_nobody note

namespace Consistent
variable (h : v.Consistent)
include h

/-- Starting a note leaves the voices consistent. -/
theorem of_starts (hs : Starts v note v' place) : v'.Consistent := by
  -- The voice of the note is new, the others are as before.
  have hset : ∀ i : Nat, v'.voices[i]? =
      if place = i then some ⟨true, v.clock + 1, some note⟩ else v.voices[i]? := by
    intro i
    rw [hs.voices, List.getElem?_set, if_pos hs.lt]
  have hnote : ∀ i, v'.noteOf? i = if place = i then some note else v.noteOf? i := by
    intro i
    rw [noteOf?, hset i]
    split
    · rfl
    · rfl
  have hiff : ∀ other i, v'.holder? other = some i ↔ v'.noteOf? i = some other := by
    intro other i
    rw [hnote, hs.holder]
    by_cases hi : place = i
    · subst hi
      rw [if_pos rfl]
      by_cases ho : other = note
      · exact iff_of_true (if_pos ho) (congrArg some ho.symm)
      · rw [if_neg ho]
        refine iff_of_false (fun hheld => ?_) fun he => ho (Option.some.inj he).symm
        split at hheld
        · cases hheld
        · next hwas => exact hwas ((h.holder other place).mp hheld)
    · rw [if_neg hi]
      by_cases ho : other = note
      · subst ho
        rw [if_pos rfl]
        refine iff_of_false (fun he => hi (Option.some.inj he)) fun hwas => ?_
        exact hi (hs.kept i ((h.holder other i).mpr hwas))
      · rw [if_neg ho]
        split
        · next hwas =>
          -- The note that loses its voice was on no other one.
          refine iff_of_false (by simp) fun hother => hi ?_
          have hplace := (h.holder other place).mpr hwas
          exact Option.some.inj (hplace.symm.trans ((h.holder other i).mpr hother))
        · exact h.holder other i
  refine ⟨hiff, fun i voice hvoice hactive => ?_, fun i voice hvoice => ?_, ?_⟩
  · by_cases hi : place = i
    · rw [hset, if_pos hi] at hvoice
      cases hvoice
      exact ⟨note, rfl, (hiff note i).mpr (by rw [hnote, if_pos hi])⟩
    · rw [hset, if_neg hi] at hvoice
      obtain ⟨other, hother, hheld⟩ := h.playing i voice hvoice hactive
      refine ⟨other, hother, (hiff other i).mpr ?_⟩
      rw [hnote, if_neg hi]
      exact (h.holder other i).mp hheld
  · rw [hs.clock]
    rw [hset] at hvoice
    split at hvoice
    · cases hvoice
      exact Nat.le_refl _
    · exact Nat.le_succ_of_le (h.changed_le i voice hvoice)
  · intro i j a b ha hb hactive hactive' hsame
    rw [hset] at ha hb
    split at ha
    · next hi =>
      split at hb
      · next hj => exact hi.symm.trans hj
      · cases ha
        have hle := h.changed_le j b hb
        rw [← hsame] at hle
        exact absurd hle (Nat.not_succ_le_self _)
    · split at hb
      · cases hb
        have hle := h.changed_le i a ha
        rw [hsame] at hle
        exact absurd hle (Nat.not_succ_le_self _)
      · exact h.apart i j a b ha hb hactive hactive' hsame

/-- Stopping a note leaves the voices consistent. -/
theorem of_stops {stopped : Option Nat} (hs : Stops v note v' stopped) : v'.Consistent := by
  cases stopped with
  | none => rwa [hs.nobody rfl]
  | some place =>
    obtain ⟨hclock, hvoices⟩ := hs.found place rfl
    -- A voice is as before, or it is the one that stopped now.
    have hwas : ∀ (i : Nat) (voice : Voice), v'.voices[i]? = some voice →
        v.voices[i]? = some voice ∨ ∃ old, v.voices[i]? = some old ∧
          voice = { old with active := false, changed := v.clock + 1 } := by
      intro i voice hvoice
      rw [hvoices, List.getElem?_modify] at hvoice
      obtain ⟨old, hold, hvoice⟩ := Option.map_eq_some_iff.mp hvoice
      split at hvoice
      · exact .inr ⟨old, hold, hvoice.symm⟩
      · exact .inl (hvoice ▸ hold)
    have hnote : ∀ i, v'.noteOf? i = v.noteOf? i := by
      intro i
      rw [noteOf?, noteOf?, hvoices, List.getElem?_modify]
      cases v.voices[i]? with
      | none => rfl
      | some voice =>
        rw [Option.map_eq_map, Option.map_some]
        split
        · rfl
        · rfl
    have still : ∀ (i : Nat) (voice : Voice), v'.voices[i]? = some voice → voice.active = true →
        v.voices[i]? = some voice := by
      intro i voice hvoice hactive
      rcases hwas i voice hvoice with hold | ⟨old, _, rfl⟩
      · exact hold
      · cases hactive
    refine ⟨fun other i => ?_, fun i voice hvoice hactive => ?_, fun i voice hvoice => ?_, ?_⟩
    · rw [hs.holder, hnote]
      exact h.holder other i
    · obtain ⟨other, hother, hheld⟩ := h.playing i voice (still i voice hvoice hactive) hactive
      exact ⟨other, hother, (hs.holder other).trans hheld⟩
    · rw [hclock]
      rcases hwas i voice hvoice with hold | ⟨old, _, rfl⟩
      · exact Nat.le_succ_of_le (h.changed_le i voice hold)
      · exact Nat.le_refl _
    · intro i j a b ha hb hactive hactive' hsame
      exact h.apart i j a b (still i a ha hactive) (still j b hb hactive') hactive hactive' hsame

end Consistent

theorem consistent_of_silenced (hs : Silenced v v') : v'.Consistent := by
  refine consistent_of_silent (fun place voice hvoice => ?_) hs.holder
  rw [hs.voices, List.getElem?_map] at hvoice
  obtain ⟨_, _, rfl⟩ := Option.map_eq_some_iff.mp hvoice
  exact ⟨rfl, rfl, Nat.le_of_eq hs.clock.symm⟩

theorem silenced_releaseAll (v : Voices) : Silenced v v.releaseAll := ⟨rfl, rfl, holder?_nobody⟩

theorem Consistent.after (h : v.Consistent) (hpos : 0 < v.voices.length) (event : Event) :
    (v.after event).Consistent ∧ (v.after event).voices.length = v.voices.length := by
  cases event with
  | assign note => exact ⟨h.of_starts (h.starts hpos note), length_assign v note⟩
  | release note => exact ⟨h.of_stops (h.stops note), length_release v note⟩
  | releaseAll => exact ⟨consistent_of_silenced (silenced_releaseAll v), length_releaseAll v⟩

theorem Consistent.afterAll (h : v.Consistent) (hpos : 0 < v.voices.length) (events : List Event) :
    (v.afterAll events).Consistent ∧ (v.afterAll events).voices.length = v.voices.length := by
  induction events generalizing v with
  | nil => exact ⟨h, rfl⟩
  | cons event rest ih =>
    obtain ⟨hevent, hlen⟩ := h.after hpos event
    obtain ⟨hrest, hlen'⟩ := ih hevent (hlen ▸ hpos)
    exact ⟨hrest, hlen'.trans hlen⟩

/-- With any number of voices, whatever was started and stopped before, the table of notes and the
voices agree, and the next start or stop does what it should and nothing else. -/
theorem sound_afterAll {count : Nat} (hpos : 0 < count) (events : List Event) :
    ((ofCount count).afterAll events).Sound := by
  rw [← length_ofCount count] at hpos
  obtain ⟨h, hlen⟩ := (consistent_ofCount count).afterAll hpos events
  exact ⟨h, h.starts (hlen ▸ hpos), h.stops, silenced_releaseAll _⟩

/-- Two voices, and a third note that takes the first voice from its note. -/
theorem sound_afterAll_stolen :
    0 < 2 ∧ ((ofCount 2).afterAll [.assign 60, .assign 64, .release 200, .assign 67]).Sound ∧
      ((ofCount 2).afterAll [.assign 60, .assign 64, .release 200, .assign 67]).noteOf? 0 = some 67 :=
  ⟨by decide, sound_afterAll (by decide) _, by decide +kernel⟩

end Patchbay.Voices
