import Patchbay.Proofs.Building.Frame
import Patchbay.Proofs.Building.Valid
import Patchbay.Proofs.Checking.Typing

/-! Typed lines can be built: what the check knows of each name fits the value that building bound
to it. A check does not see parameters inside the voice block, and so some names may be lost. Only
uses of those can fail. -/
namespace Patchbay

/-- A name where it is used: alone, or for a part of the object under it. -/
inductive Use where
  | alone (name : Ident)
  | part (part : Part) (object member : Ident)

def Use.name : Use → Ident
  | alone name => name
  | part _ object _ => object

/-- How the use of a name goes wrong where the name has no value or another one than expected. -/
inductive Use.Fails : Use → Located Building.Fault → Prop
  | undefined (use : Use) : Fails use ⟨.undefinedName use.name.name, some use.name.span⟩
  | notAnObject (part : Part) (object member : Ident) :
    Fails (.part part object member) ⟨.notAnObject part object.name, some object.span⟩
  | socket (object member : Ident) (className : String) :
    Fails (.part .socket object member) ⟨.undefinedSocket member.name className, some member.span⟩
  | output (object member : Ident) (className : String) :
    Fails (.part .output object member) ⟨.undefinedOutput member.name className, some member.span⟩
  | incompatible (name : Ident) (span : Option Span) :
    Fails (.alone name) ⟨.incompatible, span⟩

mutual

/-- The names used in an expression, from left to right. -/
def Expr.uses : Expr → List Use
  | .unary _ operand _ => operand.uses
  | .binary _ left right _ => left.uses ++ right.uses
  | .mapping _ source low high _ => source.uses ++ (low.uses ++ high.uses)
  | .construction c => c.uses
  | .socket object socket _ => [.part .socket object socket]
  | .output object output _ => [.part .output object output]
  | .name ident => [.alone ident]
  | .error _ | .number _ _ _ => []

def Construction.uses : Construction Expr → List Use
  | ⟨_, _, args, _⟩ => Construction.argsUses args

def Construction.argsUses : List (Arg Expr) → List Use
  | [] => []
  | ⟨_, value⟩ :: rest => value.uses ++ Construction.argsUses rest

end

def Statement.uses : Statement → List Use
  | .error _ => []
  | .definition _ value _ => value.uses
  | .construction c => c.uses
  | .chain source steps target _ => source.uses ++ (steps ++ [target]).flatMap Expr.uses

/-- The names whose values are summands of the value of an expression. -/
def Expr.carried : Expr → List Ident
  | .unary .plus operand _ => operand.carried
  | .binary .add left right _ => left.carried ++ right.carried
  | .binary .subtract left _ _ => left.carried
  | .name ident => [ident]
  | _ => []

theorem Expr.alone_of_carried (e : Expr) : ∀ name ∈ e.carried, Use.alone name ∈ e.uses := by
  induction e using Expr.induction (fun _ => True) with
  | unary sign operand span ih =>
    cases sign with
    | plus => exact ih
    | minus => exact fun _ h => absurd h List.not_mem_nil
  | binary op left right span ihl ihr =>
    intro name h
    rw [Expr.uses, List.mem_append]
    cases op with
    | add => exact (List.mem_append.mp h).imp (ihl name) (ihr name)
    | subtract => exact .inl (ihl name h)
    | multiply => exact absurd h List.not_mem_nil
  | name ident =>
    intro name h
    rw [List.mem_singleton.mp h]
    exact List.mem_singleton_self _
  | nil => trivial
  | cons => trivial
  | _ => exact fun _ h => absurd h List.not_mem_nil

namespace Building
open Checking
variable {α β γ : Type}

/-- No name is lost. -/
abbrev noName : String → Prop := fun _ => False

/-- An object that is there for its own sake, not to do the work of an operator. -/
def Placed (shapes : List Shape) (id : Nat) : Prop := ∃ x, shapes[id]? = some x ∧ x.origin ≠ .operator

/-- A part of a value that gives a signal. -/
def Readable (a : Atom α) : Prop := ∃ more, contributions a = .ok more

/-- A value lives up to a type: it can be read if the type says so, signals can be sent to it if
the type says so, and it is an object of the class that the type names. -/
structure Fits (catalog : Catalog) (shapes : List Shape) (type : ValueType) (v : Value α) :
    Prop where
  output : type.direction.output = true → ∀ a ∈ v, Readable a
  input : type.direction.input = true →
    (∃ ref span, v = [.object ref span] ∧ ref.cls.takesSignal = true ∧ Placed shapes ref.id) ∨
      ∃ id index span, v = [.socket id index span]
  object : ∀ name, type.className = some name → ∃ ref span, v = [.object ref span] ∧
    catalog.resolve? name = some ref.cls ∧ Placed shapes ref.id

/-- The same names, each with a value that fits, but for the lost ones. -/
def TablesFit (catalog : Catalog) (lost : String → Prop) (shapes : List Shape)
    (declared : Table Declaration) (bound : Table (Value α)) : Prop :=
  ∀ name, ¬ lost name →
    Option.Rel (fun d v => Fits catalog shapes d.type v) (declared.get? name) (bound.get? name)

/-- The names that lines of a scope see are those that the check knows. Some of the voice block may
be lost. -/
structure Agrees (catalog : Catalog) (scope : Scope) (lost : String → Prop) (names : Names)
    (s : State α) : Prop where
  only : ∀ name, lost name → scope = .voice
  global : TablesFit catalog noName s.shapes names.global s.global
  voice : scope = .voice → TablesFit catalog lost s.shapes names.voice s.voice

section Growth
variable {catalog : Catalog} {scope : Scope} {lost lost' : String → Prop} {names : Names}
  {s s' : State α} {shapes shapes' : List Shape}

theorem Placed.mono (h : shapes <+: shapes') {id : Nat} (hp : Placed shapes id) :
    Placed shapes' id := by
  obtain ⟨x, hx, ho⟩ := hp
  exact ⟨x, getElem?_mono h hx, ho⟩

theorem Fits.mono (h : shapes <+: shapes') {type : ValueType} {v : Value α}
    (hf : Fits catalog shapes type v) : Fits catalog shapes' type v := by
  refine ⟨hf.output, fun hin => ?_, fun name hname => ?_⟩
  · refine (hf.input hin).imp_left ?_
    rintro ⟨ref, span, hv, ht, hp⟩
    exact ⟨ref, span, hv, ht, hp.mono h⟩
  · obtain ⟨ref, span, hv, hc, hp⟩ := hf.object name hname
    exact ⟨ref, span, hv, hc, hp.mono h⟩

theorem TablesFit.mono (h : shapes <+: shapes') (hl : ∀ name, lost name → lost' name)
    {declared : Table Declaration} {bound : Table (Value α)}
    (hf : TablesFit catalog lost shapes declared bound) :
    TablesFit catalog lost' shapes' declared bound := by
  intro name hkept
  have hn := hf name fun hlost => hkept (hl name hlost)
  generalize declared.get? name = d at hn ⊢
  generalize bound.get? name = v at hn ⊢
  cases hn with
  | some hv => exact .some (hv.mono h)
  | none => exact .none

theorem Agrees.mono (h : Agrees catalog scope lost names s) (hs : s.shapes <+: s'.shapes)
    (hg : s'.global = s.global) (hv : s'.voice = s.voice) : Agrees catalog scope lost names s' := by
  refine ⟨h.only, hg ▸ h.global.mono hs fun _ => id, fun hscope => ?_⟩
  exact hv ▸ (h.voice hscope).mono hs fun _ => id

/-- More names may be lost. -/
theorem Agrees.lose (h : Agrees catalog scope lost names s) (hl : ∀ name, lost name → lost' name)
    (hvoice : ∀ name, lost' name → scope = .voice) : Agrees catalog scope lost' names s :=
  ⟨hvoice, h.global, fun hscope => (h.voice hscope).mono List.prefix_rfl hl⟩

theorem Agrees.find? (h : Agrees catalog scope lost names s) (name : String)
    (hname : ¬ lost name) :
    Option.Rel (fun d v => Fits catalog s.shapes d.type v) (names.find? scope name)
      (s.find? scope name) := by
  have hglobal : TablesFit catalog lost s.shapes names.global s.global :=
    h.global.mono List.prefix_rfl fun _ => False.elim
  cases scope with
  | global => exact hglobal name hname
  | voice =>
    rw [Names.find?, State.find?]
    have hv := h.voice rfl name hname
    generalize names.voice.get? name = d at hv ⊢
    generalize s.voice.get? name = v at hv ⊢
    cases hv with
    | some hv => exact .some hv
    | none => exact hglobal name hname

theorem TablesFit.put {declared : Table Declaration} {bound : Table (Value α)}
    (h : TablesFit catalog lost shapes declared bound) {name : String} {d : Declaration}
    {v : Value α} (hv : ¬ lost name → Fits catalog shapes d.type v) :
    TablesFit catalog lost shapes (declared.put name d) (bound.put name v) := by
  intro other hother
  rw [Table.get?_put, Table.get?_put]
  split
  · next heq => exact .some (hv (heq ▸ hother))
  · exact h other hother

theorem Agrees.bind (h : Agrees catalog scope lost names s) {name : String} {d : Declaration}
    {v : Value α} (hv : ¬ lost name → Fits catalog s.shapes d.type v) :
    Agrees catalog scope lost (names.put scope name d) (s.bind scope name v) := by
  cases scope with
  | global =>
    have hnone : ∀ name, lost name → noName name := fun name hl => by cases h.only name hl
    exact ⟨h.only, h.global.put fun _ => hv (hnone name), fun hscope => by cases hscope⟩
  | voice => exact ⟨h.only, h.global, fun _ => (h.voice rfl).put hv⟩

end Growth

section Values
variable {catalog : Catalog} {shapes : List Shape}

/-- Only what cannot be read stops a sum, and then as a connection that does not fit. -/
theorem gather_fault {v : Value α} {more : List (Contribution α)} {fault : Located Fault}
    (h : gather v = (more, some fault)) :
    fault.fault = .incompatible ∧ ¬ ∀ a ∈ v, Readable a := by
  induction v generalizing more with
  | nil => cases h
  | cons a rest ih =>
    rw [gather] at h
    cases ha : contributions a with
    | error f =>
      have hread : ¬ Readable a := by
        rintro ⟨first, hfirst⟩
        rw [ha] at hfirst
        cases hfirst
      refine ⟨?_, fun hall => hread (hall a List.mem_cons_self)⟩
      rw [ha] at h
      obtain ⟨_, hf⟩ := Prod.mk.inj h
      rw [← Option.some.inj hf]
      cases a with
      | constant value span => cases ha
      | output id name span => cases ha
      | socket id index span =>
        cases ha
        rfl
      | object ref span =>
        rw [contributions] at ha
        split at ha
        · cases ha
        · split at ha
          · cases ha
          · cases ha
            rfl
    | ok first =>
      rw [ha] at h
      obtain ⟨hfault, hread⟩ := ih (Prod.ext rfl (Prod.mk.inj h).2)
      exact ⟨hfault, fun hall => hread fun b hb => hall b (List.mem_cons_of_mem _ hb)⟩

theorem gather_readable {v : Value α} (h : ∀ a ∈ v, Readable a) : (gather v).2 = none := by
  rcases hg : gather v with ⟨more, _ | fault⟩
  · rfl
  · exact absurd h (gather_fault hg).2

theorem readable_object {ref : Ref} (h : ref.cls.givesSignal = true) (span : Option Span) :
    Readable (.object ref span : Atom α) := by
  rw [Readable, contributions]
  split
  · exact ⟨_, rfl⟩
  · next hnone =>
    have hout : ref.cls.hasOutput "output" = false := by
      refine Bool.eq_false_iff.mpr fun ht => ?_
      obtain ⟨m, hm⟩ := UnitClass.hasOutput_iff.mp ht
      rw [hnone] at hm
      cases hm
    rw [UnitClass.givesSignal, hout, Bool.false_or] at h
    rw [if_pos h]
    exact ⟨_, rfl⟩

/-- A signal on its own has no class and takes nothing. -/
theorem fits_source {v : Value α} (h : ∀ a ∈ v, Readable a) :
    Fits catalog shapes .source v where
  output := fun _ => h
  input := fun hin => by cases hin
  object := fun name hname => by cases hname

theorem fits_sink (id index : Nat) (span : Option Span) :
    Fits catalog shapes .sink [(.socket id index span : Atom α)] where
  output := fun hout => by cases hout
  input := fun _ => .inr ⟨id, index, span, rfl⟩
  object := fun name hname => by cases hname

theorem fits_object {ref : Ref} (hc : catalog.resolve? ref.cls.name = some ref.cls)
    (h : Placed shapes ref.id) (span : Option Span) :
    Fits catalog shapes (.object ref.cls) [(.object ref span : Atom α)] where
  output := fun hout a ha => by
    rw [List.mem_singleton.mp ha]
    exact readable_object hout span
  input := fun hin => .inl ⟨ref, span, rfl, hin, h⟩
  object := fun name hname => by
    cases hname
    exact ⟨ref, span, rfl, hc, h⟩

private theorem fits_result {ref : Ref} (h : ref.cls.givesSignal = true) (span : Option Span) :
    Fits catalog shapes .source [(.object ref span : Atom α)] := by
  refine fits_source fun a ha => ?_
  rw [List.mem_singleton.mp ha]
  exact readable_object h span

private theorem fits_constant (x : α) (span : Option Span) :
    Fits catalog shapes .source [Atom.constant x span] := by
  refine fits_source fun a ha => ?_
  rw [List.mem_singleton.mp ha]
  exact ⟨_, rfl⟩

end Values

/-- A fault that a check does not rule out: a parameter inside the voice block, or a lost name that
is used. -/
def Excused (scope : Scope) (lost : String → Prop) (uses : List Use) (f : Located Fault) : Prop :=
  (scope = .voice ∧ f.fault = .voiceParameter) ∨ ∃ use ∈ uses, lost use.name.name ∧ use.Fails f

/-- From `s` the work ends well, with the names then as told, or in a fault that is excused. -/
def Sound (catalog : Catalog) (scope : Scope) (lost : String → Prop) (uses : List Use)
    (names : Names) (s : State α) (w : Work α β) (post : β → List Shape → Prop) : Prop :=
  Leads w s (fun value s' => s.shapes <+: s'.shapes ∧ Agrees catalog scope lost names s' ∧
    post value s'.shapes) fun fault _ => Excused scope lost uses fault

/-- A lost name is used alone. -/
def UsesLost (lost : String → Prop) (uses : List Use) : Prop :=
  ∃ name, Use.alone name ∈ uses ∧ lost name.name

/-- All of a value can be read, or a lost name is at fault. -/
def Legible (lost : String → Prop) (uses : List Use) (v : Value α) : Prop :=
  (∀ a ∈ v, Readable a) ∨ UsesLost lost uses

/-- The value of an expression lives up to a type, or a lost name is in it. -/
def Suits (catalog : Catalog) (lost : String → Prop) (e : Expr) (type : ValueType) (v : Value α)
    (shapes : List Shape) : Prop :=
  Fits catalog shapes type v ∨ ∃ name ∈ e.carried, lost name.name

section Steps
variable {catalog : Catalog} {scope : Scope} {lost : String → Prop} {uses : List Use}
  {names names' : Names} {s s' : State α}

theorem Sound.bind {w : Work α β} {next : β → Work α γ} {post : β → List Shape → Prop}
    {post' : γ → List Shape → Prop} (h : Sound catalog scope lost uses names s w post)
    (hn : ∀ value s', s.shapes <+: s'.shapes → Agrees catalog scope lost names s' →
      post value s'.shapes → Sound catalog scope lost uses names' s' (next value) post') :
    Sound catalog scope lost uses names' s (w >>= next) post' := by
  rw [Sound, leads_bind]
  refine Leads.imp h (fun value s' hv => ?_) fun _ _ hf => hf
  exact Leads.imp (hn value s' hv.1 hv.2.1 hv.2.2)
    (fun _ _ hw => ⟨hv.1.trans hw.1, hw.2⟩) fun _ _ hf => hf

theorem Sound.pure (h : Agrees catalog scope lost names s) {post : β → List Shape → Prop}
    {value : β} (hp : post value s.shapes) :
    Sound catalog scope lost uses names s (pure value : Work α β) post :=
  (leads_pure value).mpr ⟨List.prefix_rfl, h, hp⟩

theorem Excused.of_use {use : Use} {f : Located Fault} (hmem : use ∈ uses)
    (hlost : lost use.name.name) (hf : use.Fails f) : Excused scope lost uses f :=
  .inr ⟨use, hmem, hlost, hf⟩

theorem Suits.fits_or {e : Expr} {type : ValueType} {v : Value α} {shapes : List Shape}
    (h : Suits catalog lost e type v shapes) (he : e.uses ⊆ uses) :
    Fits catalog shapes type v ∨ UsesLost lost uses := by
  refine h.imp_right ?_
  rintro ⟨name, hname, hlost⟩
  exact ⟨name, he (e.alone_of_carried name hname), hlost⟩

theorem Suits.legible {e : Expr} {type : ValueType} {v : Value α} {shapes : List Shape}
    (h : Suits catalog lost e type v shapes) (hout : type.direction.output = true)
    (he : e.uses ⊆ uses) : Legible lost uses v := (h.fits_or he).imp_left (·.output hout)

theorem sound_classUnder (h : Agrees catalog scope lost names s) {name : String} {c : UnitClass}
    (hc : catalog.resolve? name = some c) (span : Option Span) :
    Sound catalog scope lost uses names s (classUnder catalog name span) fun found _ =>
      found = c := by
  rw [Sound, leads_classUnder, hc]
  exact ⟨List.prefix_rfl, h, rfl⟩

theorem sound_addObject (h : Agrees catalog scope lost names s) (c : UnitClass) (origin : Origin)
    (span : Option Span) :
    Sound catalog scope lost uses names s (addObject c scope origin span) fun ref shapes =>
      ref.cls = c ∧ ∃ x, shapes[ref.id]? = some x ∧ x.origin = origin := by
  rw [Sound, leads_addObject]
  have hp : s.shapes <+: (s.add (.fresh c scope origin span)).shapes := by
    rw [State.shapes_add]
    exact List.prefix_append _ _
  refine ⟨hp, h.mono hp rfl rfl, rfl, (Draft.fresh c scope origin span : Draft α).shape, ?_, rfl⟩
  rw [State.shapes_add, ← s.length_shapes, List.getElem?_concat_length]

/-- Only sockets may differ. -/
def Filled (s s' : State α) : Prop :=
  s'.shapes = s.shapes ∧ s'.global = s.global ∧ s'.voice = s.voice

theorem Filled.mix (s : State α) (object socket : Nat) (more : List (Contribution α)) :
    Filled s (s.mix object socket more) := ⟨s.shapes_mix object socket more, rfl, rfl⟩

theorem Filled.trans {s'' : State α} (h : Filled s s') (h' : Filled s' s'') : Filled s s'' :=
  ⟨h'.1.trans h.1, h'.2.1.trans h.2.1, h'.2.2.trans h.2.2⟩

theorem Agrees.fill (h : Agrees catalog scope lost names s) (hs : Filled s s') :
    Agrees catalog scope lost names s' := h.mono (hs.1 ▸ List.prefix_rfl) hs.2.1 hs.2.2

theorem leads_mixInto_filled (object socket : Nat) (v : Value α) :
    Leads (mixInto object socket v) s (fun _ s' => Filled s s') fun f _ =>
      f.fault = .incompatible ∧ ¬ ∀ a ∈ v, Readable a := by
  rw [leads_mixInto]
  rcases hg : gather v with ⟨more, _ | fault⟩
  · exact .mix s object socket more
  · exact gather_fault hg

/-- What takes a signal: an object with an input or two sides, or a socket. -/
def Takes (v : Value α) : Prop :=
  (∃ ref span, v = [.object ref span] ∧ ref.cls.takesSignal = true) ∨
    ∃ id index span, v = [.socket id index span]

/-- A connection is refused only where there is nothing to read or nothing that takes it. -/
theorem leads_connect_filled (v target : Value α) (span : Span) :
    Leads (connect v target span) s (fun _ s' => Filled s s') fun f _ =>
      f.fault = .incompatible ∧ ((∀ a ∈ v, Readable a) → ¬ Takes target) := by
  have into : ∀ (s : State α) (object socket : Nat),
      Leads (mixInto object socket v) s (fun _ s' => Filled s s') fun f _ =>
        f.fault = .incompatible ∧ ((∀ a ∈ v, Readable a) → ¬ Takes target) := fun s object socket =>
    (leads_mixInto_filled object socket v).imp (fun _ _ h => h)
      fun _ _ h => ⟨h.1, fun hread => absurd hread h.2⟩
  have both : ∀ object left right : Nat,
      Leads (do mixInto object left v; mixInto object right v) s (fun _ s' => Filled s s')
        fun f _ => f.fault = .incompatible ∧ ((∀ a ∈ v, Readable a) → ¬ Takes target) := by
    intro object left right
    rw [leads_bind]
    refine (into s object left).imp (fun _ s' hs => ?_) fun _ _ h => h
    exact (into s' object right).imp (fun _ _ hs' => hs.trans hs') fun _ _ h => h
  rw [connect.eq_def]
  split
  · next ref place =>
    split
    · exact into _ _ _
    · rw [connectSides.eq_def]
      split
      · split
        · exact Filled.trans (.mix ..) (.mix ..)
        · exact both _ _ _
      · exact both _ _ _
    · next hinput hsides =>
      refine ⟨rfl, fun _ htakes => ?_⟩
      rcases htakes with ⟨ref', place', heq, htakes⟩ | ⟨id, index, place', heq⟩
      · cases heq
        rw [UnitClass.takesSignal, Bool.or_eq_true, Bool.and_eq_true, UnitClass.hasSocket_iff,
          UnitClass.hasSocket_iff, UnitClass.hasSocket_iff] at htakes
        rcases htakes with ⟨i, hi⟩ | ⟨⟨l, hl⟩, r, hr⟩
        · exact hinput i hi
        · cases hi : ref.cls.socketIndex? "input" with
          | some i => exact hinput i hi
          | none => exact hsides l r hi hl hr
      · cases heq
  · exact into _ _ _
  · next hobject hsocket =>
    refine ⟨rfl, fun _ htakes => ?_⟩
    rcases htakes with ⟨ref, place, rfl, _⟩ | ⟨id, index, place, rfl⟩
    · exact hobject _ _ rfl
    · exact hsocket _ _ _ rfl

theorem sound_mixInto (h : Agrees catalog scope lost names s) {v : Value α}
    (hv : Legible lost uses v) (object socket : Nat) :
    Sound catalog scope lost uses names s (mixInto object socket v) Any := by
  refine (leads_mixInto_filled object socket v).imp
    (fun _ s' hs => ⟨hs.1 ▸ List.prefix_rfl, h.fill hs, trivial⟩) fun f _ hf => ?_
  obtain ⟨name, hname, hlost⟩ := hv.resolve_left hf.2
  obtain ⟨fault, span⟩ := f
  cases hf.1
  exact .of_use hname hlost (.incompatible name span)

theorem sound_plug (h : Agrees catalog scope lost names s) {v : Value α} (hv : Legible lost uses v)
    {target : Ref} {socket : String} (hs : target.cls.hasSocket socket = true) :
    Sound catalog scope lost uses names s (plug target socket v) Any := by
  obtain ⟨index, hindex⟩ := UnitClass.hasSocket_iff.mp hs
  rw [plug, hindex]
  exact sound_mixInto h hv _ _

/-- What fits as the next link of a chain takes what is sent to it. -/
theorem sound_connect (h : Agrees catalog scope lost names s) {v : Value α}
    (hv : Legible lost uses v) {type : ValueType} {target : Value α}
    (ht : Fits catalog s.shapes type target ∨ UsesLost lost uses)
    (hin : type.direction.input = true) (span : Span) :
    Sound catalog scope lost uses names s (connect v target span) Any := by
  refine (leads_connect_filled v target span).imp
    (fun _ s' hs => ⟨hs.1 ▸ List.prefix_rfl, h.fill hs, trivial⟩) fun f _ hf => ?_
  have htakes : Fits catalog s.shapes type target → Takes target := by
    refine fun hfits => (hfits.input hin).imp_left ?_
    rintro ⟨ref, place, hr, htakes, _⟩
    exact ⟨ref, place, hr, htakes⟩
  have hculprit : UsesLost lost uses := by
    rcases hv with hread | hculprit
    · exact ht.resolve_left fun hfits => hf.2 hread (htakes hfits)
    · exact hculprit
  obtain ⟨name, hname, hlost⟩ := hculprit
  obtain ⟨fault, place⟩ := f
  cases hf.1
  exact .of_use hname hlost (.incompatible name place)

theorem sound_find (h : Agrees catalog scope lost names s) {ident : Ident} {d : Declaration}
    (hd : names.find? scope ident.name = some d) (huse : Use.alone ident ∈ uses) :
    Sound catalog scope lost uses names s (find scope ident : Work α (Value α))
      (Suits catalog lost (.name ident) d.type) := by
  rw [Sound, leads_find]
  by_cases hlost : lost ident.name
  · cases s.find? scope ident.name with
    | none => exact .of_use huse hlost (.undefined _)
    | some v => exact ⟨List.prefix_rfl, h, .inr ⟨ident, List.mem_singleton_self _, hlost⟩⟩
  · have hfind := h.find? _ hlost
    rw [hd] at hfind
    generalize s.find? scope ident.name = bound at hfind
    cases hfind with
    | some hv => exact ⟨List.prefix_rfl, h, .inl hv⟩

/-- An object of the class that the check knows, or one of another under a lost name. -/
theorem sound_findObject (h : Agrees catalog scope lost names s) {ident : Ident} {d : Declaration}
    (hd : names.find? scope ident.name = some d) {className : String}
    (hclass : d.type.className = some className) {c : UnitClass}
    (hc : catalog.resolve? className = some c) {part : Part} {member : Ident}
    (huse : Use.part part ident member ∈ uses) :
    Sound catalog scope lost uses names s (findObject scope part ident : Work α Ref)
      fun ref shapes => (ref.cls = c ∧ Placed shapes ref.id) ∨ lost ident.name := by
  rw [Sound, leads_findObject]
  by_cases hlost : lost ident.name
  · split
    · exact ⟨List.prefix_rfl, h, .inr hlost⟩
    · exact .of_use huse hlost (.notAnObject part ident member)
    · exact .of_use huse hlost (.undefined _)
  · have hfind := h.find? _ hlost
    rw [hd] at hfind
    generalize s.find? scope ident.name = bound at hfind
    cases hfind with
    | some hv =>
      obtain ⟨ref, span, rfl, hres, hp⟩ := hv.object className hclass
      rw [hc] at hres
      exact ⟨List.prefix_rfl, h, .inl ⟨(Option.some.inj hres).symm, hp⟩⟩

/-- A name is bound to a value that fits what the check knows of it, or it is lost. -/
theorem leads_define_agrees (h : Agrees catalog scope lost names s) {type : ValueType} {v : Value α}
    (name : Ident) (hv : ¬ lost name.name → Fits catalog s.shapes type v) :
    Leads (define scope name v) s
      (fun _ s' => s.shapes <+: s'.shapes ∧
        Agrees catalog scope lost (names.declare scope (some name) type) s')
      fun f _ => scope = .voice ∧ f.fault = .voiceParameter := by
  have parameter : Leads (addParameter scope name v) s
      (fun _ s' => s'.shapes = s.shapes ∧ Agrees catalog scope lost names s')
      fun f _ => scope = .voice ∧ f.fault = .voiceParameter := by
    rw [addParameter.eq_def]
    split
    · split
      · exact ⟨rfl, h⟩
      · cases scope with
        | voice => exact ⟨rfl, rfl⟩
        | global => exact ⟨rfl, h.mono List.prefix_rfl rfl rfl⟩
    · exact ⟨rfl, h⟩
  rw [define, leads_bind]
  refine parameter.imp (fun _ s' hs => ?_) fun _ _ hf => hf
  rw [Names.declare]
  split
  · exact ⟨hs.1 ▸ List.prefix_rfl, hs.2⟩
  · have hbind := hs.2.bind (d := ⟨.declared name.span, type⟩) (hs.1 ▸ hv)
    refine (leads_modify _).mpr ⟨?_, hbind⟩
    rw [State.shapes_bind, hs.1]

theorem sound_define (h : Agrees catalog scope lost names s) {type : ValueType} {v : Value α}
    (hv : Fits catalog s.shapes type v) (name : Ident) :
    Sound catalog scope lost uses (names.declare scope (some name) type) s (define scope name v)
      Any :=
  (leads_define_agrees h name fun _ => hv).imp (fun _ _ hs => ⟨hs.1, hs.2, trivial⟩)
    fun _ _ hf => .inl hf

/-- A signal by itself, or a lost name in the first summand. -/
private theorem suits_sum {v w : Value α} {left : Expr} {l : ValueType} {shapes : List Shape}
    (hv : Suits catalog lost left l v shapes) (hout : l.direction.output = true)
    (hw : ∀ a ∈ w, Readable a) :
    Fits catalog shapes .source (v ++ w) ∨ ∃ name ∈ left.carried, lost name.name :=
  hv.imp_left fun hv => fits_source fun a ha =>
    (List.mem_append.mp ha).elim (hv.output hout a) (hw a)

end Steps

/-- A class that does the work of an operator: its operands have sockets to go to, and it gives a
signal. -/
def IsOperator (catalog : Catalog) (className : String) (sockets : List String) : Prop :=
  ∃ c, catalog.resolve? className = some c ∧ (∀ socket ∈ sockets, c.hasSocket socket = true) ∧
    c.givesSignal = true

/-- All operators have their classes. -/
structure Operable (catalog : Catalog) : Prop where
  inverter : IsOperator catalog Builtin.inverter ["input"]
  attenuator : IsOperator catalog Builtin.attenuator ["input", "amount"]
  mapping : ∀ polarity, IsOperator catalog (mappingClass polarity) ["source", "from", "to"]

section Operators
variable {catalog : Catalog} {scope : Scope} {lost : String → Prop} {uses : List Use}
  {names : Names} {s : State α}

theorem sound_operatorObject (h : Agrees catalog scope lost names s) {className : String}
    {sockets : List String} (ho : IsOperator catalog className sockets) (span : Span) :
    Sound catalog scope lost uses names s (operatorObject catalog scope className span)
      fun ref _ => (∀ socket ∈ sockets, ref.cls.hasSocket socket = true) ∧
        ref.cls.givesSignal = true := by
  obtain ⟨c, hc, hsockets, hsignal⟩ := ho
  refine (sound_classUnder h hc (some span)).bind fun found s' _ h' hfound => ?_
  subst hfound
  have hadded : Sound catalog scope lost uses names s'
      (addObject found scope .operator (some span)) _ := sound_addObject h' _ _ _
  refine hadded.imp ?_ fun _ _ hf => hf
  rintro ref s'' ⟨hs, h'', rfl, _⟩
  exact ⟨hs, h'', hsockets, hsignal⟩

variable [Arithmetic α] (hops : Operable catalog)
include hops

theorem sound_negate (h : Agrees catalog scope lost names s) {v : Value α}
    (hv : Legible lost uses v) (span : Span) :
    Sound catalog scope lost uses names s (negate catalog scope v span) fun v shapes =>
      Fits catalog shapes .source v := by
  rw [negate.eq_def]
  split
  · exact .pure h (fits_constant _ _)
  · refine (sound_operatorObject h hops.inverter span).bind fun ref s₁ _ h₁ href => ?_
    refine (sound_plug h₁ hv (href.1 _ (by simp))).bind fun _ s₂ _ h₂ _ => ?_
    exact .pure h₂ (fits_result href.2 _)

theorem sound_scale (h : Agrees catalog scope lost names s) {v w : Value α}
    (hv : Legible lost uses v) (hw : Legible lost uses w) (span : Span) :
    Sound catalog scope lost uses names s (scale catalog scope v w span) fun v shapes =>
      Fits catalog shapes .source v := by
  rw [scale.eq_def]
  split
  · exact .pure h (fits_constant _ _)
  · refine (sound_operatorObject h hops.attenuator span).bind fun ref s₁ _ h₁ href => ?_
    refine (sound_plug h₁ hv (href.1 _ (by simp))).bind fun _ s₂ _ h₂ _ => ?_
    refine (sound_plug h₂ hw (href.1 _ (by simp))).bind fun _ s₃ _ h₃ _ => ?_
    exact .pure h₃ (fits_result href.2 _)

omit hops in
theorem sound_literal (h : Agrees catalog scope lost names s) (value : Float) (unit : String)
    (span : Span) :
    Sound catalog scope lost uses names s (literal value unit span : Work α (Value α))
      fun v shapes => Fits catalog shapes .source v := by
  rw [literal]
  split
  · exact .pure h (fits_constant _ _)
  · have hwarn : Sound catalog scope lost uses names s
        (warn (.unknownUnit unit) (some span) : Work α Unit) Any :=
      ⟨List.prefix_rfl, h.mono List.prefix_rfl rfl rfl, trivial⟩
    exact hwarn.bind fun _ s₁ _ h₁ _ => .pure h₁ (fits_constant _ _)

/-- What is typed can be built, and its value fits its type, but for what comes of lost names. -/
theorem sound_buildExpr (hk : catalog.Regular) (lost : String → Prop) {judgment : Judgment}
    {names' : Names} (ht : Typed catalog scope names judgment names') :
    match judgment with
    | .expr e type => e.uses ⊆ uses → ∀ s : State α, Agrees catalog scope lost names s →
      Sound catalog scope lost uses names' s (buildExpr catalog scope e)
        (Suits catalog lost e type)
    | .args c position args => Construction.argsUses args ⊆ uses → ∀ (s : State α) (object : Ref),
      Agrees catalog scope lost names s → object.cls = c → c.Regular →
        Sound catalog scope lost uses names' s (buildArgs catalog scope object position args)
          Any := by
  induction ht with
  | number =>
    intro _ s h
    rw [buildExpr]
    exact (sound_literal h _ _ _).imp (fun _ _ hv => ⟨hv.1, hv.2.1, .inl hv.2.2⟩) fun _ _ hf => hf
  | unary _ hout ih =>
    rename_i sign operand span _ _
    intro huses s h
    rw [buildExpr]
    refine (ih huses s h).bind fun v s₁ _ h₁ hv => ?_
    cases sign with
    | plus => exact .pure h₁ (hv.imp_left fun hv => fits_source (hv.output hout))
    | minus =>
      exact (sound_negate hops h₁ (hv.legible hout huses) span).imp
        (fun _ _ hn => ⟨hn.1, hn.2.1, .inl hn.2.2⟩) fun _ _ hf => hf
  | binary _ houtl _ houtr ihl ihr =>
    rename_i op left right span _ _ _ _
    intro huses s h
    rw [Expr.uses, List.append_subset] at huses
    rw [buildExpr]
    refine (ihl huses.1 s h).bind fun v s₁ _ h₁ hv => ?_
    refine (ihr huses.2 s₁ h₁).bind fun w s₂ hs₂ h₂ hw => ?_
    have hv₂ : Suits catalog lost left _ v s₂.shapes := hv.imp_left (·.mono hs₂)
    cases op with
    | add =>
      refine .pure h₂ ?_
      rcases hw with hw | ⟨name, hname, hlost⟩
      · refine (suits_sum hv₂ houtl (hw.output houtr)).imp_right ?_
        rintro ⟨name, hname, hlost⟩
        exact ⟨name, List.mem_append_left _ hname, hlost⟩
      · exact .inr ⟨name, List.mem_append_right _ hname, hlost⟩
    | subtract =>
      refine (sound_negate hops h₂ (hw.legible houtr huses.2) span).bind fun n s₃ hs₃ h₃ hn => ?_
      have hv₃ : Suits catalog lost left _ v s₃.shapes := hv₂.imp_left (·.mono hs₃)
      exact .pure h₃ (suits_sum hv₃ houtl (hn.output rfl))
    | multiply =>
      exact (sound_scale hops h₂ (hv.legible houtl huses.1) (hw.legible houtr huses.2) span).imp
        (fun _ _ hn => ⟨hn.1, hn.2.1, .inl hn.2.2⟩) fun _ _ hf => hf
  | mapping _ houts _ houtl _ houth ihs ihl ihh =>
    rename_i polarity _ _ _ span _ _ _ _ _ _
    intro huses s h
    rw [Expr.uses, List.append_subset, List.append_subset] at huses
    rw [buildExpr]
    refine (ihs huses.1 s h).bind fun u s₁ _ h₁ hu => ?_
    refine (ihl huses.2.1 s₁ h₁).bind fun v s₂ _ h₂ hv => ?_
    refine (ihh huses.2.2 s₂ h₂).bind fun w s₃ _ h₃ hw => ?_
    refine (sound_operatorObject h₃ (hops.mapping polarity) span).bind fun ref s₄ _ h₄ href => ?_
    have hu' := hu.legible houts huses.1
    have hv' := hv.legible houtl huses.2.1
    have hw' := hw.legible houth huses.2.2
    refine (sound_plug h₄ hu' (href.1 _ (by simp))).bind fun _ s₅ _ h₅ _ => ?_
    refine (sound_plug h₅ hv' (href.1 _ (by simp))).bind fun _ s₆ _ h₆ _ => ?_
    refine (sound_plug h₆ hw' (href.1 _ (by simp))).bind fun _ s₇ _ h₇ _ => ?_
    exact .pure h₇ (.inl (fits_result href.2 _))
  | construction hc _ ih =>
    rename_i className name args span c _
    intro huses s h
    rw [buildExpr, buildConstruction]
    refine (sound_classUnder h hc _).bind fun found s₁ _ h₁ hfound => ?_
    subst hfound
    refine (sound_addObject h₁ found .written _).bind fun ref s₂ _ h₂ href => ?_
    obtain ⟨hcls, x, hx, ho⟩ := href
    have hplaced : Placed s₂.shapes ref.id := ⟨x, hx, ho ▸ Origin.noConfusion⟩
    refine (ih huses s₂ ref h₂ hcls (hk _ _ hc).1).bind fun _ s₃ hs₃ h₃ _ => ?_
    have hres : catalog.resolve? ref.cls.name = some ref.cls := hcls ▸ (hk _ _ hc).2
    have hfits := fits_object (α := α) hres (hplaced.mono hs₃) (some span)
    rw [hcls] at hfits
    cases name with
    | none => exact .pure h₃ (.inl hfits)
    | some name =>
      refine (sound_define h₃ hfits name).bind fun _ s₄ hs₄ h₄ _ => ?_
      exact .pure h₄ (.inl (hfits.mono hs₄))
  | socket hd hclass hc hsocket =>
    intro huses s h
    rw [buildExpr]
    have huse := huses (List.mem_singleton_self _)
    refine (sound_findObject h hd hclass hc huse).bind fun ref s₁ _ h₁ href => ?_
    split
    · exact .pure h₁ (.inl (fits_sink ..))
    · next hnone =>
      rcases href with ⟨rfl, _⟩ | hlost
      · obtain ⟨index, hindex⟩ := UnitClass.hasSocket_iff.mp hsocket
        rw [hnone] at hindex
        cases hindex
      · exact (leads_fail _ _).mpr (.of_use huse hlost (.socket ..))
  | output hd hclass hc houtput =>
    intro huses s h
    rw [buildExpr]
    have huse := huses (List.mem_singleton_self _)
    refine (sound_findObject h hd hclass hc huse).bind fun ref s₁ _ h₁ href => ?_
    split
    · refine .pure h₁ (.inl (fits_source fun a ha => ?_))
      rw [List.mem_singleton.mp ha]
      exact ⟨_, rfl⟩
    · next hnone =>
      rcases href with ⟨rfl, _⟩ | hlost
      · obtain ⟨name, hname⟩ := UnitClass.hasOutput_iff.mp houtput
        rw [hnone] at hname
        cases hname
      · exact (leads_fail _ _).mpr (.of_use huse hlost (.output ..))
  | name hd =>
    intro huses s h
    rw [buildExpr]
    exact sound_find h hd (huses (List.mem_singleton_self _))
  | nil =>
    intro _ s object h _ _
    rw [buildArgs]
    exact .pure h trivial
  | positional hs _ hout _ ihv ihr =>
    rintro huses s object h rfl hreg
    rw [Construction.argsUses, List.append_subset] at huses
    rw [buildArgs, hs]
    refine (ihv huses.1 s h).bind fun v s₁ _ h₁ hv => ?_
    have hsocket := UnitClass.hasSocket_iff.mpr (hreg.positionalSocket? hs)
    exact (sound_plug h₁ (hv.legible hout huses.1) hsocket).bind fun _ s₂ _ h₂ _ =>
      ihr huses.2 s₂ object h₂ rfl hreg
  | labelled hs _ hout _ ihv ihr =>
    rintro huses s object h rfl hreg
    rw [Construction.argsUses, List.append_subset] at huses
    rw [buildArgs, hs]
    refine (ihv huses.1 s h).bind fun v s₁ _ h₁ hv => ?_
    have hsocket := hreg.hasSocket_canonicalSocket? hs
    exact (sound_plug h₁ (hv.legible hout huses.1) hsocket).bind fun _ s₂ _ h₂ _ =>
      ihr huses.2 s₂ object h₂ rfl hreg

theorem sound_buildLinks (hk : catalog.Regular) {links : List Expr} {names' : Names}
    (ht : TypedLinks catalog scope names links names') :
    links.flatMap Expr.uses ⊆ uses → ∀ (s : State α) (previous : Value α),
      Agrees catalog scope lost names s → Legible lost uses previous →
        Sound catalog scope lost uses names' s (buildLinks catalog scope previous links) Any := by
  induction ht with
  | last ht hin =>
    intro huses s previous h hp
    rw [List.flatMap_singleton] at huses
    refine (sound_buildExpr hops hk lost ht huses s h).bind fun v s₁ _ h₁ hv => ?_
    exact (sound_connect h₁ hp (hv.fits_or huses) hin _).bind fun _ s₂ _ h₂ _ => .pure h₂ trivial
  | step ht hin hout _ ih =>
    intro huses s previous h hp
    rw [List.flatMap_cons, List.append_subset] at huses
    refine (sound_buildExpr hops hk lost ht huses.1 s h).bind fun v s₁ _ h₁ hv => ?_
    exact (sound_connect h₁ hp (hv.fits_or huses.1) hin _).bind fun _ s₂ _ h₂ _ =>
      ih huses.2 s₂ v h₂ (hv.legible hout huses.1)

/-- Where no name is lost, the value of an expression fits its type. -/
theorem fits_buildExpr (hk : catalog.Regular) {e : Expr} {type : ValueType} {names' : Names}
    (ht : Typed catalog scope names (.expr e type) names')
    (h : Agrees catalog scope noName names s) :
    Sound catalog scope noName e.uses names' s (buildExpr catalog scope e) fun v shapes =>
      Fits catalog shapes type v := by
  refine (sound_buildExpr hops hk noName ht (List.Subset.refl _) s h).imp (fun v _ hv => ?_)
    fun _ _ hf => hf
  refine ⟨hv.1, hv.2.1, hv.2.2.resolve_right ?_⟩
  rintro ⟨_, _, hlost⟩
  exact hlost

/-- The name that a statement defines may be lost as well if lost names are in its value. -/
theorem leads_buildStatement (hk : catalog.Regular) (lost' : String → Prop) {statement : Statement}
    {names' : Names} (ht : TypedStatement catalog scope names statement names')
    (h : Agrees catalog scope lost names s) (hl : ∀ name, lost name → lost' name)
    (hvoice : ∀ name, lost' name → scope = .voice)
    (hdefined : ∀ name value span, statement = .definition name value span →
      ∀ used ∈ value.carried, lost used.name → lost' name.name) :
    Leads (buildStatement catalog scope statement) s
      (fun _ s' => s.shapes <+: s'.shapes ∧ Agrees catalog scope lost' names' s')
      fun f _ => Excused scope lost statement.uses f := by
  cases ht with
  | definition ht hname =>
    rename_i name value span type
    have hvalue := sound_buildExpr hops hk lost ht (List.Subset.refl _) s h
    rw [buildStatement, leads_bind]
    refine hvalue.imp (fun v s₁ hv => ?_) fun _ _ hf => hf
    obtain ⟨hs₁, h₁, hv⟩ := hv
    have hfits : ¬ lost' name.name → Fits catalog s₁.shapes type v := by
      intro hkept
      refine hv.resolve_right ?_
      rintro ⟨used, hused, hlost⟩
      exact hkept (hdefined _ _ _ rfl used hused hlost)
    refine (leads_define_agrees (h₁.lose hl hvoice) name hfits).imp (fun _ s₂ hs₂ => ?_)
      fun _ _ hf => .inl hf
    rw [Names.declare, if_neg (Bool.eq_false_iff.mp hname)] at hs₂
    exact ⟨hs₁.trans hs₂.1, hs₂.2⟩
  | construction ht =>
    have hc := sound_buildExpr hops hk lost ht (List.Subset.refl _) s h
    rw [buildExpr] at hc
    rw [buildStatement, leads_bind]
    exact hc.imp (fun _ _ hv => ⟨hv.1, hv.2.1.lose hl hvoice⟩) fun _ _ hf => hf
  | chain ht hout hlinks =>
    rename_i source steps target span _
    have huses := List.append_subset.mp
      (List.Subset.refl (Statement.chain source steps target span).uses)
    have hall : Sound catalog scope lost _ _ s _ Any :=
      (sound_buildExpr hops hk lost ht huses.1 s h).bind fun v s₁ _ h₁ hv =>
        sound_buildLinks hops hk hlinks huses.2 s₁ v h₁ (hv.legible hout huses.1)
    exact hall.imp (fun _ _ hv => ⟨hv.1, hv.2.1.lose hl hvoice⟩) fun _ _ hf => hf

theorem sound_buildStatement (hk : catalog.Regular) {statement : Statement} {names' : Names}
    (ht : TypedStatement catalog scope names statement names')
    (h : Agrees catalog scope noName names s) :
    Sound catalog scope noName statement.uses names' s (buildStatement catalog scope statement)
      Any :=
  (leads_buildStatement hops hk noName ht h (fun _ => id) (fun _ => False.elim)
    fun _ _ _ _ _ _ => id).imp (fun _ _ hs => ⟨hs.1, hs.2, trivial⟩) fun _ _ hf => hf

end Operators
end Building
end Patchbay
