/-! Which voice plays which note. A note goes back to the voice it was last on. Other notes go to
an idle voice if there is one, and among equals to the one that was left alone longest. -/
namespace Patchbay

/-- A voice: whether it plays, when it last started or stopped, and its last note. -/
structure Voice where
  active : Bool
  changed : Nat
  note : Option Nat
  deriving Repr, DecidableEq

def highestNote : Nat := 127

/-- The voices and how many starts and stops there were. -/
structure Voices where
  voices : List Voice
  clock : Nat
  holders : Vector (Option Nat) (highestNote + 1)
  holders_lt : ∀ note place : Nat, holders[note]? = some (some place) → place < voices.length
  deriving Repr, DecidableEq

namespace Voices

private theorem nobody_lt {note place count : Nat}
    (h : (Vector.replicate (highestNote + 1) (none : Option Nat))[note]? = some (some place)) :
    place < count := by
  rw [Vector.getElem?_replicate] at h
  split at h
  · cases h
  · cases h

def ofCount (count : Nat) : Voices :=
  ⟨List.replicate count ⟨false, 0, none⟩, 0, .replicate _ none, fun _ _ => nobody_lt⟩

def anyActive (v : Voices) : Bool := v.voices.any Voice.active

def holder? (v : Voices) (note : Nat) : Option Nat := v.holders[note]?.join

def preferred (a b : Voice) : Bool :=
  if a.active = b.active then a.changed < b.changed else b.active

/-- The place of the first voice that no other is preferred to. -/
def longestIdle : (l : List Voice) → Option (Fin l.length)
  | [] => none
  | a :: rest =>
    match longestIdle rest with
    | none => some ⟨0, Nat.zero_lt_succ _⟩
    | some i => if preferred rest[i] a then some i.succ else some ⟨0, Nat.zero_lt_succ _⟩

def holdersWithout (v : Voices) (place : Fin v.voices.length) :
    Vector (Option Nat) (highestNote + 1) :=
  match v.voices[place].note with
  | some old => v.holders.setIfInBounds old none
  | none => v.holders

private theorem holdersWithout_lt (v : Voices) (place : Fin v.voices.length) (note other : Nat)
    (h : (v.holdersWithout place)[note]? = some (some other)) : other < v.voices.length := by
  rw [holdersWithout] at h
  split at h
  · rw [Vector.getElem?_setIfInBounds] at h
    split at h
    · split at h
      · cases h
      · cases h
    · exact v.holders_lt note other h
  · exact v.holders_lt note other h

private theorem handed_lt (v : Voices) (place : Fin v.voices.length) (note other' other : Nat)
    (h : ((v.holdersWithout place).setIfInBounds note (some place.val))[other']? =
      some (some other)) : other < v.voices.length := by
  rw [Vector.getElem?_setIfInBounds] at h
  split at h
  · split at h
    · cases h
      exact place.isLt
    · cases h
  · exact holdersWithout_lt v place other' other h

/-- Hand a voice from the note it was on to another one. -/
def hand (v : Voices) (place : Fin v.voices.length) (note : Nat) : Voices :=
  ⟨v.voices, v.clock, (v.holdersWithout place).setIfInBounds note (some place.val),
    handed_lt v place note⟩

private theorem set_lt (v : Voices) (place : Nat) (voice : Voice) (note other : Nat)
    (h : v.holders[note]? = some (some other)) : other < (v.voices.set place voice).length :=
  Nat.lt_of_lt_of_eq (v.holders_lt note other h) List.length_set.symm

def play (v : Voices) (place note : Nat) : Voices :=
  let now := v.clock + 1
  ⟨v.voices.set place ⟨true, now, some note⟩, now, v.holders, set_lt v place _⟩

/-- Start a note; the voice it plays on is passed on. Notes above the highest count as it. -/
def assign (v : Voices) (note : Nat) : Voices × Nat :=
  let note := min note highestNote
  match v.holder? note with
  | some place => (v.play place note, place)
  | none =>
    match longestIdle v.voices with
    | some place => ((v.hand place note).play place note, place)
    | none => (v, 0)

private theorem modify_lt (v : Voices) (place : Nat) (f : Voice → Voice) (note other : Nat)
    (h : v.holders[note]? = some (some other)) : other < (v.voices.modify place f).length :=
  Nat.lt_of_lt_of_eq (v.holders_lt note other h) (List.length_modify _ _ _).symm

def stop (v : Voices) (place : Nat) : Voices :=
  let now := v.clock + 1
  ⟨v.voices.modify place fun voice => { voice with active := false, changed := now }, now,
    v.holders, modify_lt v place _⟩

def release (v : Voices) (note : Nat) : Voices × Option Nat :=
  match v.holder? (min note highestNote) with
  | none => (v, none)
  | some place => if v.voices[place]?.any Voice.active then (v.stop place, some place) else (v, none)

def releaseAll (v : Voices) : Voices :=
  let now := v.clock + 1
  ⟨v.voices.map fun _ => ⟨false, now, none⟩, now, .replicate _ none, fun _ _ => nobody_lt⟩

section Count
variable {v : Voices} {note place : Nat}

theorem holders_of_holder? (h : v.holder? note = some place) :
    v.holders[note]? = some (some place) := Option.join_eq_some_iff.mp h

theorem holder?_lt (h : v.holder? note = some place) : place < v.voices.length :=
  v.holders_lt note place (holders_of_holder? h)

@[simp] theorem length_ofCount (count : Nat) : (ofCount count).voices.length = count :=
  List.length_replicate

@[simp] theorem length_play (v : Voices) (place note : Nat) :
    (v.play place note).voices.length = v.voices.length := List.length_set

theorem longestIdle_isSome {l : List Voice} (h : 0 < l.length) : ∃ i, longestIdle l = some i := by
  cases l with
  | nil => exact absurd h (Nat.lt_irrefl 0)
  | cons a rest =>
    rw [longestIdle]
    split
    · exact ⟨_, rfl⟩
    · split
      · exact ⟨_, rfl⟩
      · exact ⟨_, rfl⟩

theorem length_assign (v : Voices) (note : Nat) :
    (v.assign note).1.voices.length = v.voices.length := by
  rw [assign]
  split
  · exact length_play v _ _
  · split
    · exact length_play (v.hand _ _) _ _
    · rfl

theorem assign_lt (h : 0 < v.voices.length) (note : Nat) :
    (v.assign note).2 < v.voices.length := by
  rw [assign]
  split
  · next hh => exact holder?_lt hh
  · obtain ⟨i, hi⟩ := longestIdle_isSome h
    rw [hi]
    exact i.isLt

theorem length_stop (v : Voices) (place : Nat) :
    (v.stop place).voices.length = v.voices.length := List.length_modify _ _ _

theorem length_release (v : Voices) (note : Nat) :
    (v.release note).1.voices.length = v.voices.length := by
  rw [release]
  split
  · rfl
  · split
    · exact length_stop v _
    · rfl

theorem release_lt (h : (v.release note).2 = some place) : place < v.voices.length := by
  rw [release] at h
  split at h
  · cases h
  · next hh =>
    split at h
    · cases h
      exact holder?_lt hh
    · cases h

theorem length_releaseAll (v : Voices) : v.releaseAll.voices.length = v.voices.length :=
  List.length_map _

end Count

end Patchbay.Voices
