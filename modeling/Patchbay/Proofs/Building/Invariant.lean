import Patchbay.Proofs.Building.Discipline

/-! Building keeps states valid, whether it succeeds or ends in a fault, up to all lines of a
program. -/
namespace Patchbay.Building
variable {α β : Type} {catalog : Catalog} {s : State α}

theorem Valid.warn (h : Valid catalog s) (unit : String) (span : Option Span) :
    Extends catalog s (s.change (.warning ⟨.unknownUnit unit, span⟩)) := by
  refine ⟨⟨h.classes, h.sockets, h.mixes, h.global, h.voice, h.parameters, fun w hw => ?_⟩,
    List.prefix_rfl⟩
  rcases List.mem_append.mp hw with hw | hw
  · exact h.warnings w hw
  · rw [List.mem_singleton.mp hw]
    exact Warning.noConfusion

/-- A name is bound to a value that is valid, and a parameter is an object that is there. -/
theorem Valid.bindings (h : Valid catalog s) {v : Value α} (hv : ValidValue s.classes v)
    (scope : Scope) (name : String) : Extends catalog s (s.changeAll (bindings scope name v)) := by
  cases hp : parameterFor? name v with
  | none =>
    rw [Building.bindings, hp]
    exact h.bind hv scope name
  | some p =>
    have hthere : p.object < s.objects.length := by
      obtain ⟨ref, span, rfl, _, rfl⟩ := parameterFor?_eq_some.mp hp
      have hat : s.classes[ref.id]? = some ref.cls := hv _ List.mem_cons_self
      have hlt := (List.getElem?_eq_some_iff.mp hat).1
      rwa [State.classes, List.length_map, s.length_shapes] at hlt
    have hparameter : Extends catalog s (s.change (.parameter p)) := by
      refine ⟨⟨h.classes, h.sockets, h.mixes, h.global, h.voice, fun q hq => ?_, h.warnings⟩,
        List.prefix_rfl⟩
      rcases List.mem_append.mp hq with hq | hq
      · exact h.parameters q hq
      · exact List.mem_singleton.mp hq ▸ hthere
    rw [Building.bindings, hp]
    exact hparameter.trans (hparameter.valid.bind hv scope name)

/-- What keeps states valid. -/
def validity [Arithmetic α] (hk : catalog.Regular) (scope : Scope) :
    Discipline α catalog scope where
  toAllowance := .all
  holds := Valid catalog
  does s changes := Extends catalog s (s.changeAll changes)
  atom s := ValidAtom s.classes
  object s ref := s.classes[ref.id]? = some ref.cls
  fills _ _ := True
  does_nil := .refl
  does_append h h' := by
    rw [State.changeAll_append]
    exact h.trans h'
  holds_later _ h := h.valid
  atom_later h ha := ha.mono h.classes
  object_later h href := getElem?_mono h.classes href
  place_atom _ := trivial
  atom_find h hv := h.find? hv
  atom_literal _ _ := trivial
  atom_negated _ _ := trivial
  atom_scaled _ _ _ := trivial
  atom_object href _ := href
  atom_output _ href hname _ := ⟨_, href, UnitClass.canonicalOutput?_mem hname⟩
  atom_side h href hstereo hside := by
    have hmem := (h.regular hk href).side_mem hstereo
    rcases hside with rfl | rfl
    · exact ⟨_, href, hmem.1⟩
    · exact ⟨_, href, hmem.2⟩
  atom_socket _ href hindex _ := ⟨_, href, UnitClass.socketIndex?_lt hindex⟩
  does_add origin h hc _ :=
    ⟨h.add (hk _ _ hc).2 scope origin _, validAtom_added (α := α) _ scope origin _ none⟩
  fills_object _ := trivial
  does_mix h _ hmore := by
    refine h.mix (fun c hc => ?_) _ _
    have hatom := hmore c hc
    cases c with
    | output id name span => exact hatom
    | constant value span => trivial
  does_bind h _ _ hv _ := h.bindings hv scope _
  does_warn unit h _ := h.warn unit _

theorem routes_validity [Arithmetic α] (hk : catalog.Regular) (scope : Scope) :
    (validity hk scope : Discipline α catalog scope).Routes := fun _ _ => trivial

/-- From `s` the work leads to an extension of it, with a value as in `post`. -/
def Keeps (catalog : Catalog) (s : State α) (w : Work α β) (post : β → List UnitClass → Prop) :
    Prop :=
  Leads w s (fun value s' => Extends catalog s s' ∧ post value s'.classes) fun _ s' =>
    Extends catalog s s'

theorem Extends.after {w : Work α Unit} (hw : Keeps catalog s w Any) :
    Extends catalog s (s.after w) := by
  refine Leads.after (Extends catalog s) (Leads.imp hw (fun _ _ hs => hs.1) fun fault s' hs => ?_)
  exact ⟨⟨hs.valid.classes, hs.valid.sockets, hs.valid.mixes, hs.valid.global, hs.valid.voice,
    hs.valid.parameters, hs.valid.warnings⟩, hs.shapes⟩

variable [Arithmetic α]

/-- Building an expression, of any kind and in any scope, keeps states valid. -/
theorem keeps_buildExpr (h : Valid catalog s) (hk : catalog.Regular) (scope : Scope) (e : Expr) :
    Keeps catalog s (buildExpr catalog scope e) fun v classes => ValidValue classes v := by
  refine Leads.imp (((validity hk scope).acts_buildExpr e s trivial).leads h) ?_ ?_
  · rintro v _ ⟨⟨changes, hdoes, _, _, rfl⟩, hv⟩
    exact ⟨hdoes, hv⟩
  · rintro _ _ ⟨⟨changes, hdoes, _, rfl⟩, _⟩
    exact hdoes

theorem keeps_buildStatement (h : Valid catalog s) (hk : catalog.Regular) (scope : Scope)
    (statement : Statement) : Keeps catalog s (buildStatement catalog scope statement) Any := by
  have hacts := (validity hk scope).acts_buildStatement (routes_validity hk scope)
    (Allowance.allows_all statement) s
  refine Leads.imp (hacts.leads h) ?_ ?_
  · rintro _ _ ⟨⟨changes, hdoes, _, _, rfl⟩, _⟩
    exact ⟨hdoes, trivial⟩
  · rintro _ _ ⟨⟨changes, hdoes, _, rfl⟩, _⟩
    exact hdoes

/-- Any lines keep states valid. -/
theorem extends_buildLines (h : Valid catalog s) (hk : catalog.Regular) (lines : List Line) :
    Extends catalog s (buildLines catalog s lines) := by
  induction lines generalizing s with
  | nil => exact .refl h
  | cons line rest ih =>
    have hs := Extends.after (keeps_buildStatement h hk line.scope line.statement)
    exact hs.trans (ih hs.valid)

end Patchbay.Building
