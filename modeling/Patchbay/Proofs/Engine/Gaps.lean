import Patchbay.Proofs.Engine.Frame
import Patchbay.Proofs.Engine.Fronts
import Patchbay.Proofs.Engine.Simulation

/-! What calls do between two samples. Each voice has note inputs of its own, and the values that
calls set on them are told by the calls alone. -/
namespace Patchbay
open Arithmetic (natural)
open Reference Reference.Patch Wiring
variable {α U : Type}

/-- The note inputs that each voice has for itself and that calls set. -/
inductive NoteInput where
  | trigger
  | gate
  | pitch
  | velocity
  deriving DecidableEq

namespace NoteInput

/-- The object of a note input of the voices. -/
def object : NoteInput → Nat
  | trigger => Builtin.firstVoiceInput
  | gate => Builtin.firstVoiceInput + 1
  | pitch => Builtin.firstVoiceInput + 2
  | velocity => Builtin.firstVoiceInput + 3

/-- The value of a note input for a note that starts. -/
def startValue [Arithmetic α] (height force : α) : NoteInput → α
  | trigger | gate => natural 1
  | pitch => height
  | velocity => force

variable {voice : Nat} (input : NoteInput)

theorem first_le : Builtin.firstVoiceInput ≤ input.object := by
  cases input <;> simp [object]

theorem lt_last : input.object < Builtin.firstVoiceInput + 4 := by
  cases input <;> simp [object]

/-- The four objects from the first on are note inputs. -/
theorem exists_object {i : Nat} (hfirst : Builtin.firstVoiceInput ≤ i)
    (hlast : i < Builtin.firstVoiceInput + 4) : ∃ input : NoteInput, input.object = i := by
  have hcases : i = trigger.object ∨ i = gate.object ∨ i = pitch.object ∨ i = velocity.object := by
    simp only [object]
    omega
  rcases hcases with rfl | rfl | rfl | rfl
  · exact ⟨trigger, rfl⟩
  · exact ⟨gate, rfl⟩
  · exact ⟨pitch, rfl⟩
  · exact ⟨velocity, rfl⟩

theorem eq_gate_iff (voice' : Nat) :
    (⟨input.object, voice⟩ : Place) = ⟨Builtin.firstVoiceInput + 1, voice'⟩ ↔
      input = .gate ∧ voice' = voice := by
  cases input <;> simp [object, eq_comm]

/-- The gate that all voices share is none of a voice. -/
theorem ne_shared : (⟨input.object, voice⟩ : Place) ≠ ⟨1, 0⟩ := by
  have hfive : 5 ≤ input.object := input.first_le
  intro heq
  injection heq with hobject
  omega

end NoteInput

namespace Reference.Call
variable [Arithmetic α]

/-- The values that a call sets on a note input of a voice. -/
def sets (voices : Voices) (voice : Nat) (input : NoteInput) : Call α → List α
  | .noteOn note velocity =>
    if highestNote < note ∨ (voices.assign note).2 ≠ voice then []
    else
      [input.startValue (Quantity.keyPitch note)
        (Arithmetic.clamp (natural 0) (natural 1) velocity)]
  | .noteOff note =>
    if input = .gate ∧ (voices.release note).2 = some voice then [natural 0] else []
  | .releaseAll => if input = .gate then [natural 0] else []
  | .setParameter .. | .generate _ => []

/-- For each sample the values that calls set on the note inputs of a voice since the sample
before. Some were set `recently`. -/
def setsBetween (voice : Nat) (history : NoteHistory α) (recently : NoteInput → List α) :
    List (Call α) → List (NoteInput → List α)
  | [] => []
  | .generate 0 :: rest => setsBetween voice history recently rest
  | .generate (n + 1) :: rest =>
    recently :: (List.replicate n fun _ => []) ++ setsBetween voice history (fun _ => []) rest
  | c :: rest =>
    setsBetween voice (history.after c)
      (fun input => recently input ++ c.sets history.voices voice input) rest

/-- For each sample the values that calls set on the note inputs of a voice in front of it. -/
def noteSets (voices voice : Nat) (calls : List (Call α)) : List (NoteInput → List α) :=
  setsBetween voice (.ofCount voices) (fun _ => []) calls

end Reference.Call

namespace Reference
variable [Arithmetic α] [Playable α U] {p : Patch α} {s t : Player α U} {voice : Nat}

/-- The objects whose units calls may set. -/
abbrev Patch.Settable (p : Patch α) (object : Nat) : Prop := IsNoteInput object ∨ p.IsParameter object

/-- What calls between two samples do to the note inputs of a voice. Nothing but they, and what
other calls may set, is others behind them. -/
structure Gap (p : Patch α) (voice : Nat) (sets : NoteInput → List α) (s t : Player α U) :
    Prop where
  touches : Touches p.Settable s t
  own : ∀ input : NoteInput, t.units ⟨input.object, voice⟩ =
    (sets input).foldl (fun u value => Playable.setValue value u) (s.units ⟨input.object, voice⟩)
  latched : ⟨Builtin.firstVoiceInput, voice⟩ ∈ t.latched ↔
    ⟨Builtin.firstVoiceInput, voice⟩ ∈ s.latched ∨ sets .trigger ≠ []
  nodup : s.latched.Nodup → t.latched.Nodup

omit [Arithmetic α] in
theorem Gap.refl (p : Patch α) (voice : Nat) (s : Player α U) : Gap p voice (fun _ => []) s s :=
  ⟨.refl _ s, fun _ => rfl, by simp, id⟩

omit [Arithmetic α] in
theorem Gap.trans {first second : NoteInput → List α} (h : Gap p voice first s t)
    {u : Player α U} (h' : Gap p voice second t u) :
    Gap p voice (fun input => first input ++ second input) s u := by
  refine ⟨h.touches.trans h'.touches, fun input => ?_, ?_, fun hn => h'.nodup (h.nodup hn)⟩
  · rw [h'.own, h.own, List.foldl_append]
  · rw [h'.latched, h.latched, or_assoc, ← not_and_or, ← List.append_eq_nil_iff]

private theorem units_startNote_own (pitch velocity : α) (input : NoteInput) :
    (startNote s pitch velocity Builtin.firstVoiceInput voice).units ⟨input.object, voice⟩ =
      Playable.setValue (input.startValue pitch velocity) (s.units ⟨input.object, voice⟩) := by
  rw [startNote]
  split <;> cases input <;> simp [NoteInput.object, NoteInput.startValue]

/-- Note inputs of a voice are neither those of other voices nor those that all voices share. -/
private theorem units_startNote_apart {first voice' : Nat} (hapart : first = 0 ∨ voice ≠ voice')
    (pitch velocity : α) (input : NoteInput) :
    (startNote s pitch velocity first voice').units ⟨input.object, voice⟩ =
      s.units ⟨input.object, voice⟩ := by
  refine units_startNote (fun i hi heq => ?_) pitch velocity
  injection heq with hobject hvoice
  have hfive : 5 ≤ input.object := input.first_le
  omega

private theorem gap_noteOn (note : Nat) (velocity : α) :
    Gap p voice (fun input => Call.sets s.voices voice input (.noteOn note velocity)) s
      (noteOn s note velocity) := by
  have htouches : Touches p.Settable s (noteOn s note velocity) :=
    touches_event (c := .noteOn note velocity) (by simp)
  by_cases hnote : highestNote < note
  · have hkept : noteOn s note velocity = s := by rw [noteOn, if_pos hnote]
    rw [hkept]
    simp only [Call.sets, hnote, true_or, if_true]
    exact .refl p voice s
  · simp only [Call.sets, hnote, false_or]
    rw [noteOn, if_neg hnote] at htouches ⊢
    generalize s.voices.assign note = assigned at htouches ⊢
    obtain ⟨voices, voice'⟩ := assigned
    generalize (Quantity.keyPitch note : α) = pitch at htouches ⊢
    generalize Arithmetic.clamp (natural 0) (natural 1) velocity = force at htouches ⊢
    dsimp only at htouches ⊢
    refine ⟨htouches, fun input => ?_, ?_, fun hn => ?_⟩
    · by_cases hv : voice' = voice
      · subst hv
        rw [units_startNote_own, units_startNote_apart (.inl rfl), if_neg (by simp)]
        rfl
      · rw [units_startNote_apart (.inr (Ne.symm hv)), units_startNote_apart (.inl rfl), if_pos hv]
        rfl
    · rw [mem_latched_startNote, mem_latched_startNote]
      by_cases hv : voice' = voice
      · simp [hv]
      · simp [hv, Ne.symm hv, Builtin.firstVoiceInput]
    · have hshared := nodup_latched_startNote (s := { s with voices }) hn pitch force 0 0
      exact nodup_latched_startNote hshared pitch force Builtin.firstVoiceInput voice'

private theorem gap_noteOff (note : Nat) :
    Gap p voice (fun input => Call.sets s.voices voice input (.noteOff note)) s
      (noteOff s note) := by
  have htouches : Touches p.Settable s (noteOff s note) :=
    touches_event (c := .noteOff note) (by simp)
  simp only [Call.sets]
  rw [noteOff] at htouches ⊢
  generalize s.voices.release note = released at htouches ⊢
  obtain ⟨voices, _ | voice'⟩ := released
  · simp only [reduceCtorEq, and_false, if_false]
    exact .refl p voice s
  · dsimp only at htouches ⊢
    refine ⟨htouches, fun input => ?_, ?_, fun hn => ?_⟩
    · have hgate : ∀ s' : Player α U,
          (set s' ⟨Builtin.firstVoiceInput + 1, voice'⟩ (natural 0)).units ⟨input.object, voice⟩ =
            if input = .gate ∧ voice' = voice then
              Playable.setValue (natural 0) (s'.units ⟨input.object, voice⟩)
            else s'.units ⟨input.object, voice⟩ := by
        intro s'
        rw [units_set]
        by_cases hg : input = .gate ∧ voice' = voice
        · have heq := (input.eq_gate_iff voice').mpr hg
          rw [if_pos hg, if_pos heq, heq]
        · rw [if_neg hg, if_neg fun heq => hg ((input.eq_gate_iff voice').mp heq)]
      have hboth : (if voices.anyActive = true then
          set { s with voices } ⟨Builtin.firstVoiceInput + 1, voice'⟩ (natural 0)
        else
          set (set { s with voices } ⟨Builtin.firstVoiceInput + 1, voice'⟩ (natural 0))
            ⟨1, 0⟩ (natural 0)).units ⟨input.object, voice⟩ =
          (set { s with voices } ⟨Builtin.firstVoiceInput + 1, voice'⟩ (natural 0)).units
            ⟨input.object, voice⟩ := by
        split
        · rfl
        · rw [units_set, if_neg input.ne_shared]
      rw [hboth, hgate]
      simp only [Option.some.injEq]
      split <;> rfl
    · split <;> simp [set]
    · split <;> exact hn

private theorem gap_releaseAll (hvoice : voice < p.voices) :
    Gap p voice (fun input => Call.sets s.voices voice input .releaseAll) s (releaseAll p s) := by
  have htouches : Touches p.Settable s (releaseAll p s) := touches_event (c := .releaseAll) (by simp)
  have hlatched : (releaseAll p s).latched = s.latched := (setAll_rest _ _ _).2
  refine ⟨htouches, fun input => ?_, by simp [hlatched, Call.sets], fun hn => hlatched ▸ hn⟩
  have hgates : ((List.range p.voices).map (Place.mk (Builtin.firstVoiceInput + 1)) ++
      [Place.mk 1 0]).Nodup := by
    refine List.Nodup.append (List.nodup_range.map fun v v' h => ?_) (List.nodup_singleton _) ?_
    · injection h
    · rw [List.disjoint_singleton, List.mem_map]
      rintro ⟨v, _, heq⟩
      exact absurd heq (NoteInput.ne_shared .gate)
  have hmem : Place.mk input.object voice ∈
      (List.range p.voices).map (Place.mk (Builtin.firstVoiceInput + 1)) ++ [Place.mk 1 0] ↔
        input = .gate := by
    rw [List.mem_append, List.mem_map, List.mem_singleton]
    constructor
    · rintro (⟨v, _, heq⟩ | heq)
      · exact ((input.eq_gate_iff v).mp heq.symm).1
      · exact absurd heq input.ne_shared
    · rintro rfl
      exact .inl ⟨voice, List.mem_range.mpr hvoice, rfl⟩
  rw [releaseAll]
  refine (units_setAll_of_nodup hgates _ _).trans ?_
  by_cases hg : input = .gate
  · rw [if_pos (hmem.mpr hg), Call.sets, if_pos hg]
    rfl
  · rw [if_neg (fun hm => hg (hmem.mp hm)), Call.sets, if_neg hg]
    rfl

private theorem gap_setParameter (hp : ∀ input : NoteInput, ¬ p.IsParameter input.object)
    (name : String) (value : α) :
    Gap p voice (fun _ => []) s (setParameter p s name value) := by
  have htouches : Touches p.Settable s (setParameter p s name value) :=
    touches_event (c := .setParameter name value) (by simp)
  have hlatched : (setParameter p s name value).latched = s.latched := by
    rw [setParameter]
    split
    · rfl
    · exact (setAll_rest s _ _).2
  refine ⟨htouches, fun input => ?_, by simp [hlatched], fun hn => hlatched ▸ hn⟩
  refine (touches_setParameter name value).units _ ?_
  rintro ⟨q, hq, hobject⟩
  exact hp input ⟨q, List.mem_of_find?_eq_some hq, hobject⟩

/-- Calls between samples set what they tell, and nothing else of a voice. -/
theorem gap_event (hvoice : voice < p.voices) (hp : ∀ input : NoteInput, ¬ p.IsParameter input.object)
    {c : Call α} (hc : ∀ n, c ≠ .generate n) :
    Gap p voice (fun input => c.sets s.voices voice input) s (call p s c).1 := by
  cases c with
  | noteOn note velocity => exact gap_noteOn note velocity
  | noteOff note => exact gap_noteOff note
  | releaseAll => exact gap_releaseAll hvoice
  | setParameter name value => exact gap_setParameter hp name value
  | generate n => exact absurd rfl (hc n)

/-- The states in front of samples, from a state behind the sample before, and what was set on the
note inputs of a voice in front of each. -/
inductive Samples (p : Patch α) (voice : Nat) :
    Player α U → List (Player α U) → List (NoteInput → List α) → Prop
  | nil (s : Player α U) : Samples p voice s [] []
  | cons {s front : Player α U} {sets : NoteInput → List α} {fronts : List (Player α U)}
      {more : List (NoteInput → List α)} (gap : Gap p voice sets s front)
      (rest : Samples p voice (tick p front).1 fronts more) :
      Samples p voice s (front :: fronts) (sets :: more)

/-- The player in front of each sample. -/
def fronts (p : Patch α) (s : Player α U) (calls : List (Call α)) : List (Player α U) :=
  Call.fronts (fun s => (tick p s).1) (fun s c => (call p s c).1) s calls

/-- Nothing is set between the samples of one call. -/
theorem samples_frontsOf {later : List (Player α U)} {more : List (NoteInput → List α)} (n : Nat)
    (hrest : Samples p voice (generate p s n).1 later more) :
    Samples p voice s (Call.frontsOf (fun s => (tick p s).1) s n ++ later)
      (List.replicate n (fun _ => []) ++ more) := by
  induction n generalizing s with
  | zero => exact hrest
  | succ n ih => exact .cons (.refl p voice s) (ih hrest)

/-- In front of each sample a voice has heard what the calls since the sample before tell. -/
theorem samples_fronts (hvoice : voice < p.voices)
    (hp : ∀ input : NoteInput, ¬ p.IsParameter input.object) {recently : NoteInput → List α}
    (h : Gap p voice recently s t) {history : NoteHistory α} (hv : t.voices = history.voices)
    (calls : List (Call α)) :
    Samples p voice s (fronts p t calls) (Call.setsBetween voice history recently calls) := by
  -- Calls that ask for no sample widen the gap between `s` and `t`; a sample closes it.
  induction calls generalizing s t recently history with
  | nil => exact .nil s
  | cons c rest ih =>
    have hevent : (∀ n, c ≠ .generate n) →
        Samples p voice s (fronts p (call p t c).1 rest)
          (Call.setsBetween voice (history.after c)
            (fun input => recently input ++ c.sets history.voices voice input) rest) :=
      fun hc => ih (h.trans (hv ▸ gap_event hvoice hp hc)) (voices_call hv c)
    cases c with
    | generate n =>
      cases n with
      | zero => exact ih h hv
      | succ n =>
        have hlater : (generate p (tick p t).1 n).1.voices = history.voices := by
          rw [voices_generate, voices_tick, hv]
        exact .cons h (samples_frontsOf n (ih (.refl p voice _) hlater))
    | _ => exact hevent (by simp)

end Reference

namespace Represents
variable [Arithmetic α] [Playable α U] {p : Patch α} {w : Wiring α} {e : Engine α U}
  {s : Player α U}

/-- In front of each sample the engine is played like the objects of its graph. -/
theorem fronts (h : Represents p w e s) (hw : Wired p w) (hv : 0 < p.voices)
    (calls : List (Call α)) :
    List.Forall₂ (Represents p w) (e.fronts calls) (Reference.fronts p s calls) :=
  Call.forall₂_fronts (fun _ _ h => (h.tick hw).1) (fun _ _ c h => (h.call hw hv c).1) h calls

end Represents
end Patchbay
