import Patchbay.Proofs.Building.Valid

/-! What lines do to a state, change by change. -/
namespace Patchbay.Building
variable {α β γ : Type}

/-- A single change to a state. -/
inductive Change (α : Type) where
  | add (d : Draft α)
  | mix (object socket : Nat) (more : List (Contribution α))
  | bind (scope : Scope) (name : String) (value : Value α)
  | parameter (p : Parameter)
  | warning (w : Located Warning)

/-- The name that a change binds. -/
def Change.name? : Change α → Option String
  | .bind _ name _ => some name
  | .add _ | .mix _ _ _ | .parameter _ | .warning _ => none

def Change.isAdd : Change α → Bool
  | .add _ => true
  | .mix _ _ _ | .bind _ _ _ | .parameter _ | .warning _ => false

namespace State

def change (s : State α) : Change α → State α
  | .add d => s.add d
  | .mix object socket more => s.mix object socket more
  | .bind scope name value => s.bind scope name value
  | .parameter p => { s with parameters := s.parameters ++ [p] }
  | .warning w => { s with warnings := s.warnings ++ [w] }

def changeAll (s : State α) (changes : List (Change α)) : State α := changes.foldl change s

/-- Expressions cannot tell the states apart: the same names stand for the same values, and the next
object gets the same number. -/
structure Alike (s t : State α) : Prop where
  objects : s.objects.length = t.objects.length
  global : s.global = t.global
  voice : s.voice = t.voice

@[simp] theorem changeAll_nil (s : State α) : s.changeAll [] = s := rfl

@[simp] theorem changeAll_cons (s : State α) (c : Change α) (rest : List (Change α)) :
    s.changeAll (c :: rest) = (s.change c).changeAll rest := rfl

theorem changeAll_append (s : State α) (first second : List (Change α)) :
    s.changeAll (first ++ second) = (s.changeAll first).changeAll second := List.foldl_append

@[simp] theorem length_objects_mix (s : State α) (object socket : Nat)
    (more : List (Contribution α)) :
    (s.mix object socket more).objects.length = s.objects.length := List.length_modify _ _ _

theorem length_objects_changeAll (s : State α) (changes : List (Change α)) :
    (s.changeAll changes).objects.length = s.objects.length + changes.countP Change.isAdd := by
  induction changes generalizing s with
  | nil => rfl
  | cons c rest ih =>
    have hstep : (s.change c).objects.length = s.objects.length + if c.isAdd then 1 else 0 := by
      cases c with
      | add d => exact List.length_append
      | mix object socket more => exact s.length_objects_mix object socket more
      | bind scope name value => cases scope <;> rfl
      | parameter p => rfl
      | warning w => rfl
    rw [changeAll_cons, ih, hstep, List.countP_cons]
    omega

theorem shapes_change (s : State α) (c : Change α) : s.shapes <+: (s.change c).shapes := by
  cases c with
  | add d => simp [change]
  | mix object socket more => simp [change]
  | bind scope name value => simp [change]
  | parameter p => exact List.prefix_rfl
  | warning w => exact List.prefix_rfl

/-- Changes leave the objects there, but for what their sockets receive. -/
theorem shapes_changeAll (s : State α) (changes : List (Change α)) :
    s.shapes <+: (s.changeAll changes).shapes := by
  induction changes generalizing s with
  | nil => exact List.prefix_rfl
  | cons c rest ih => exact (s.shapes_change c).trans (ih _)

namespace Alike
variable {s t : State α}

theorem refl (s : State α) : Alike s s := ⟨rfl, rfl, rfl⟩

theorem find? (h : Alike s t) (scope : Scope) (name : String) :
    s.find? scope name = t.find? scope name := by
  cases scope <;> simp [State.find?, h.global, h.voice]

theorem change (h : Alike s t) (c : Change α) : Alike (s.change c) (t.change c) := by
  obtain ⟨hobjects, hglobal, hvoice⟩ := h
  cases c with
  | add d => exact ⟨by simp [State.change, State.add, hobjects], hglobal, hvoice⟩
  | mix object socket more => exact ⟨by simp [State.change, hobjects], hglobal, hvoice⟩
  | bind scope name value =>
    cases scope with
    | global => exact ⟨hobjects, congrArg (·.put name value) hglobal, hvoice⟩
    | voice => exact ⟨hobjects, hglobal, congrArg (·.put name value) hvoice⟩
  | parameter p => exact ⟨hobjects, hglobal, hvoice⟩
  | warning w => exact ⟨hobjects, hglobal, hvoice⟩

theorem changeAll (h : Alike s t) (changes : List (Change α)) :
    Alike (s.changeAll changes) (t.changeAll changes) := by
  induction changes generalizing s t with
  | nil => exact h
  | cons c rest ih => exact ih (h.change c)

end Alike
end State

/-- The names that changes bind, in order. -/
def boundNames (changes : List (Change α)) : List String := changes.filterMap Change.name?

theorem boundNames_append (first second : List (Change α)) :
    boundNames (first ++ second) = boundNames first ++ boundNames second := List.filterMap_append

/-- The parameter that a name stands for, if its value is a knob. -/
def parameterFor? (name : String) : Value α → Option Parameter
  | [.object ref _] => if ref.cls.name = Builtin.knob then some ⟨name, ref.id⟩ else none
  | _ => none

theorem parameterFor?_eq_some {name : String} {v : Value α} {p : Parameter} :
    parameterFor? name v = some p ↔ ∃ ref span, v = [.object ref span] ∧
      ref.cls.name = Builtin.knob ∧ p = ⟨name, ref.id⟩ := by
  constructor
  · intro h
    rw [parameterFor?.eq_def] at h
    split at h
    · next ref span =>
      split at h
      · next hknob => exact ⟨ref, span, rfl, hknob, (Option.some.inj h).symm⟩
      · cases h
    · cases h
  · rintro ⟨ref, span, rfl, hknob, rfl⟩
    exact if_pos hknob

/-- What lines of a scope do to bind a name. With a knob it becomes a parameter as well. -/
def bindings (scope : Scope) (name : String) (value : Value α) : List (Change α) :=
  (parameterFor? name value).toList.map .parameter ++ [.bind scope name value]

theorem boundNames_bindings (scope : Scope) (name : String) (value : Value α) :
    boundNames (bindings scope name value) = [name] := by
  rw [bindings, boundNames_append]
  cases parameterFor? name value <;> rfl

theorem countP_bindings (scope : Scope) (name : String) (value : Value α) :
    (bindings scope name value).countP Change.isAdd = 0 := by
  rw [bindings]
  cases parameterFor? name value <;> rfl

/-- A name other than `_` stands for a parameter if its value is a knob. -/
theorem addParameter_eq (scope : Scope) (name : Ident) (v : Value α) :
    addParameter scope name v =
      if name.isDiscard then pure () else
        match parameterFor? name.name v with
        | none => pure ()
        | some p =>
          match scope with
          | .voice => fail .voiceParameter (some name.span)
          | .global => modify fun s => s.change (.parameter p) := by
  rcases v with _ | ⟨⟨ref, span⟩ | _ | _ | _, _ | _⟩
  case cons.object.nil =>
    rw [addParameter.eq_def, parameterFor?]
    dsimp only
    cases name.isDiscard with
    | true => rfl
    | false =>
      by_cases hknob : ref.cls.name = Builtin.knob
      · rw [hknob, bne_self_eq_false, if_pos rfl]
        rfl
      · rw [if_neg hknob, bne_iff_ne.mpr hknob]
        rfl
  all_goals
    rw [addParameter.eq_def, parameterFor?.eq_def]
    exact (ite_self _).symm

theorem run_define (scope : Scope) (name : Ident) (v : Value α) (t : State α) :
    (define scope name v).run t =
      if name.isDiscard then (.ok (), t)
      else if scope = .voice ∧ parameterFor? name.name v ≠ none then
        (.error ⟨.voiceParameter, some name.span⟩, t)
      else (.ok (), t.changeAll (bindings scope name.name v)) := by
  rw [define, addParameter_eq, bindings]
  cases name.isDiscard with
  | true => rfl
  | false =>
    cases parameterFor? name.name v with
    | none => cases scope <;> rfl
    | some p => cases scope <;> rfl

end Patchbay.Building
