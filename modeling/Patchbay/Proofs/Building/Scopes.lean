import Patchbay.Proofs.Building.Discipline

/-! Shared lines and the voice block. What a shared line can name belongs to no voice, and so all
that it does, change by change, keeps to objects that belong to none. -/
namespace Patchbay.Building
variable {α : Type}

/-- Which objects belong to each voice. -/
def State.owners (s : State α) : List Bool := s.objects.map Draft.perVoice

/-- The objects that lines of a scope may refer to. They exist, and shared lines refer to none of
the voice block. -/
def Seen (scope : Scope) (owners : List Bool) (id : Nat) : Prop :=
  match scope with
  | .global => owners[id]? = some false
  | .voice => id < owners.length

/-- A value that mentions only objects that lines of the scope may refer to. -/
def SeenValue (scope : Scope) (owners : List Bool) (v : Value α) : Prop :=
  ∀ a ∈ v, ∀ id, a.object? = some id → Seen scope owners id

/-- Summands that read only objects that lines of the scope may refer to. -/
def SeenMix (scope : Scope) (owners : List Bool) (mix : List (Contribution α)) : Prop :=
  ∀ c ∈ mix, ∀ id, c.object? = some id → Seen scope owners id

/-- Names bound by shared lines stand for shared objects only. All objects mentioned or read are
there. -/
structure State.Apart (s : State α) : Prop where
  global : ∀ name v, s.global.get? name = some v → SeenValue .global s.owners v
  voice : ∀ name v, s.voice.get? name = some v → SeenValue .voice s.owners v
  mixes : ∀ d ∈ s.objects, ∀ mix ∈ d.mixes, SeenMix .voice s.owners mix

/-- What lines of a scope may do to a state: add objects of their own, fill sockets of objects that
they may refer to with what they may refer to, and bind names to such values. -/
inductive Change.Proper (scope : Scope) (s : State α) : Change α → Prop
  | add (cls : UnitClass) (origin : Origin) (span : Option Span) :
    Proper scope s (.add (.fresh cls scope origin span))
  | mix {object socket : Nat} {more : List (Contribution α)}
    (htarget : Seen scope s.owners object) (hmore : SeenMix scope s.owners more) :
    Proper scope s (.mix object socket more)
  | bind {name : String} {v : Value α} (hv : SeenValue scope s.owners v) :
    Proper scope s (.bind scope name v)
  | parameter {p : Parameter} (hscope : scope = .global) (hp : Seen scope s.owners p.object) :
    Proper scope s (.parameter p)
  | warning (w : Located Warning) : Proper scope s (.warning w)

/-- One proper change after the other. -/
def Proceeds (scope : Scope) : State α → List (Change α) → Prop
  | _, [] => True
  | s, c :: rest => c.Proper scope s ∧ Proceeds scope (s.change c) rest

/-- A state that proper changes lead to. -/
def Leaves (scope : Scope) (s t : State α) : Prop :=
  ∃ changes, Proceeds scope s changes ∧ t = s.changeAll changes

section Laws
variable {scope : Scope} {owners owners' : List Bool} {s t u : State α}

theorem Seen.mono (h : owners <+: owners') {id : Nat} (hid : Seen scope owners id) :
    Seen scope owners' id := by
  cases scope with
  | global => exact getElem?_mono h hid
  | voice => exact Nat.lt_of_lt_of_le hid h.length_le

/-- What shared lines may refer to, all lines may. -/
theorem Seen.of_global {id : Nat} (h : Seen .global owners id) : Seen scope owners id := by
  cases scope with
  | global => exact h
  | voice => exact (List.getElem?_eq_some_iff.mp h).1

theorem Seen.voice {id : Nat} (h : Seen scope owners id) : Seen .voice owners id := by
  cases scope with
  | global => exact h.of_global
  | voice => exact h

theorem SeenValue.mono {v : Value α} (h : owners <+: owners') (hv : SeenValue scope owners v) :
    SeenValue scope owners' v := fun a ha id hid => (hv a ha id hid).mono h

theorem SeenMix.mono {mix : List (Contribution α)} (h : owners <+: owners')
    (hm : SeenMix scope owners mix) : SeenMix scope owners' mix :=
  fun c hc id hid => (hm c hc id hid).mono h

theorem SeenMix.append {mix more : List (Contribution α)} (hm : SeenMix scope owners mix)
    (hn : SeenMix scope owners more) : SeenMix scope owners (mix ++ more) :=
  fun c hc => (List.mem_append.mp hc).elim (hm c) (hn c)

theorem SeenValue.single {a : Atom α} (h : ∀ id, a.object? = some id → Seen scope owners id) :
    SeenValue scope owners [a] := fun _ hb => List.mem_singleton.mp hb ▸ h

theorem SeenValue.object {ref : Ref} (h : Seen scope owners ref.id) (span : Option Span) :
    SeenValue (α := α) scope owners [.object ref span] := .single fun _ hid => Option.some.inj hid ▸ h

theorem State.owners_eq (s : State α) : s.owners = s.shapes.map Shape.perVoice := by
  simp [owners, shapes, Function.comp_def, Draft.shape]

theorem owners_changeAll (s : State α) (changes : List (Change α)) :
    s.owners <+: (s.changeAll changes).owners := by
  rw [State.owners_eq, State.owners_eq]
  exact (s.shapes_changeAll changes).map Shape.perVoice

theorem proceeds_append {first second : List (Change α)} :
    Proceeds scope s (first ++ second) ↔
      Proceeds scope s first ∧ Proceeds scope (s.changeAll first) second := by
  induction first generalizing s with
  | nil => simp [Proceeds]
  | cons c rest ih => simp [Proceeds, ih, and_assoc]

end Laws

section Steps
variable {scope : Scope} {s t : State α}

theorem State.Apart.find? (h : s.Apart) {name : String} {v : Value α}
    (hv : s.find? scope name = some v) : SeenValue scope s.owners v := by
  cases scope with
  | global => exact h.global name v hv
  | voice =>
    rcases Option.or_eq_some_iff.mp hv with hv | ⟨_, hv⟩
    · exact h.voice name v hv
    · exact fun a ha id hid => (h.global name v hv a ha id hid).of_global

private theorem seenValue_put {table : Table (Value α)} {owners : List Bool} {name : String}
    {v : Value α} (h : ∀ other w, table.get? other = some w → SeenValue scope owners w)
    (hv : SeenValue scope owners v) :
    ∀ other w, (table.put name v).get? other = some w → SeenValue scope owners w := by
  intro other w hw
  rw [Table.get?_put] at hw
  split at hw
  · exact Option.some.inj hw ▸ hv
  · exact h other w hw

theorem State.Apart.change (h : s.Apart) {c : Change α} (hc : c.Proper scope s) :
    (s.change c).Apart := by
  have hgrow : s.owners <+: (s.change c).owners := owners_changeAll s [c]
  have hglobal : ∀ name v, s.global.get? name = some v →
      SeenValue .global (s.change c).owners v := fun name v hv => (h.global name v hv).mono hgrow
  have hvoice : ∀ name v, s.voice.get? name = some v →
      SeenValue .voice (s.change c).owners v := fun name v hv => (h.voice name v hv).mono hgrow
  have hmixes : ∀ d ∈ s.objects, ∀ mix ∈ d.mixes, SeenMix .voice (s.change c).owners mix :=
    fun d hd mix hmix => (h.mixes d hd mix hmix).mono hgrow
  cases hc with
  | add cls origin span =>
    refine ⟨hglobal, hvoice, fun d hd mix hmix => ?_⟩
    rcases List.mem_append.mp hd with hd | hd
    · exact hmixes d hd mix hmix
    · rw [List.mem_singleton.mp hd] at hmix
      rw [List.eq_of_mem_replicate hmix]
      exact fun c hc => absurd hc List.not_mem_nil
  | mix htarget hmore =>
    refine ⟨hglobal, hvoice, fun d hd mix hmix => ?_⟩
    rcases mem_modify hd with hd | ⟨e, he, rfl⟩
    · exact hmixes d hd mix hmix
    · rcases mem_modify hmix with hmix | ⟨old, hold, rfl⟩
      · exact hmixes e he mix hmix
      · refine (hmixes e he old hold).append ?_
        exact fun c hc id hid => (hmore.mono hgrow c hc id hid).voice
  | bind hv =>
    cases scope with
    | global => exact ⟨seenValue_put hglobal (hv.mono hgrow), hvoice, hmixes⟩
    | voice => exact ⟨hglobal, seenValue_put hvoice (hv.mono hgrow), hmixes⟩
  | parameter _ _ => exact ⟨hglobal, hvoice, hmixes⟩
  | warning w => exact ⟨hglobal, hvoice, hmixes⟩

theorem State.Apart.changeAll (h : s.Apart) {changes : List (Change α)}
    (hp : Proceeds scope s changes) : (s.changeAll changes).Apart := by
  induction changes generalizing s with
  | nil => exact h
  | cons c rest ih => exact ih (h.change hp.1) hp.2

end Steps

/-- A name is bound to what lines of the scope may refer to, and only shared lines bind parameters. -/
theorem proceeds_bindings {scope : Scope} {s : State α} {v : Value α} (name : String)
    (hv : SeenValue scope s.owners v) (hvoice : scope = .voice → parameterFor? name v = none) :
    Proceeds scope s (bindings scope name v) := by
  rw [bindings]
  cases hp : parameterFor? name v with
  | none => exact ⟨.bind hv, trivial⟩
  | some p =>
    have hscope : scope = .global := by
      cases scope with
      | global => rfl
      | voice => exact absurd (hvoice rfl) (hp ▸ Option.some_ne_none p)
    obtain ⟨ref, span, rfl, _, rfl⟩ := parameterFor?_eq_some.mp hp
    exact ⟨.parameter hscope (hv _ List.mem_cons_self _ rfl), .bind hv, trivial⟩

variable [Arithmetic α]

/-- What makes proper changes only. -/
def heeding (catalog : Catalog) (scope : Scope) : Discipline α catalog scope where
  toAllowance := .all
  holds := State.Apart
  does := Proceeds scope
  atom s a := ∀ id, a.object? = some id → Seen scope s.owners id
  object s ref := Seen scope s.owners ref.id
  fills s := Seen scope s.owners
  does_nil _ := trivial
  does_append h h' := proceeds_append.mpr ⟨h, h'⟩
  holds_later h hp := h.changeAll hp
  atom_later _ h id hid := (h id hid).mono (owners_changeAll _ _)
  object_later _ h := h.mono (owners_changeAll _ _)
  place_atom _ := trivial
  atom_find h hv := h.find? hv
  atom_literal _ _ _ hid := by cases hid
  atom_negated _ _ _ hid := by cases hid
  atom_scaled _ _ _ _ hid := by cases hid
  atom_object h _ _ hid := Option.some.inj hid ▸ h
  atom_output _ h _ _ := h
  atom_side _ h _ _ := h
  atom_socket _ h _ _ := h
  does_add := by
    intro s name cls span origin _ _ _
    refine ⟨⟨.add cls origin span, trivial⟩, ?_⟩
    cases scope with
    | global => simp [Seen, State.owners, State.add, Draft.fresh]
    | voice => simp [Seen, State.owners, State.add]
  fills_object h := h
  does_mix := by
    intro s id socket more _ htarget hmore
    refine ⟨.mix htarget fun c hc object hobject => hmore c hc object ?_, trivial⟩
    cases c with
    | output source name span => exact hobject
    | constant value span => cases hobject
  does_bind _ _ _ hv hvoice := proceeds_bindings _ hv hvoice
  does_warn _ _ _ := ⟨.warning _, trivial⟩

theorem routes_heeding (catalog : Catalog) (scope : Scope) :
    (heeding catalog scope : Discipline α catalog scope).Routes := fun ha hid => ha _ hid

/-- However work on a statement ends, it has made proper changes. -/
theorem heeds_buildStatement (catalog : Catalog) {scope : Scope} {s : State α} (h : s.Apart)
    (statement : Statement) :
    Leads (buildStatement catalog scope statement) s (fun _ s' => Leaves scope s s')
      fun _ s' => Leaves scope s s' := by
  have hacts := (heeding catalog scope).acts_buildStatement (routes_heeding catalog scope)
    (Allowance.allows_all statement) s
  refine Leads.imp (hacts.leads h) ?_ ?_
  · rintro _ _ ⟨⟨changes, hdoes, _, _, rfl⟩, _⟩
    exact ⟨changes, hdoes, rfl⟩
  · rintro _ _ ⟨⟨changes, hdoes, _, rfl⟩, _⟩
    exact ⟨changes, hdoes, rfl⟩

end Patchbay.Building
