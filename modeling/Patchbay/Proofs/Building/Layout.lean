import Patchbay.Building.Export
import Patchbay.Proofs.Building.Work
import Patchbay.Proofs.Program.Layout
import Patchbay.Proofs.SortedMap
import Patchbay.Proofs.Table

/-! Building does not look at places: a program whose places are forgotten is built into the same
graph, with the places forgotten. -/
namespace Patchbay
variable {α β γ δ ε : Type}

def Contribution.bare : Contribution α → Contribution α
  | output object name span => output object name (span.map Span.bare)
  | constant value span => constant value (span.map Span.bare)

namespace Building

def Atom.bare : Atom α → Atom α
  | object ref span => object ref (span.map Span.bare)
  | output id name span => output id name (span.map Span.bare)
  | socket id index span => socket id index (span.map Span.bare)
  | constant value span => constant value (span.map Span.bare)

def Draft.bare (d : Draft α) : Draft α :=
  { d with mixes := d.mixes.map (·.map Contribution.bare), span := d.span.map Span.bare }

/-- What is built, without places. -/
def State.bare (s : State α) : State α where
  objects := s.objects.map Draft.bare
  global := s.global.map (·.map Atom.bare)
  voice := s.voice.map (·.map Atom.bare)
  parameters := s.parameters
  faults := s.faults.map Located.bare
  warnings := s.warnings.map Located.bare

private theorem map_modify {f : β → γ} {g : β → β} {h : γ → γ} (hf : ∀ b, f (g b) = h (f b))
    (l : List β) (i : Nat) : (l.modify i g).map f = (l.map f).modify i h := by
  induction l generalizing i with
  | nil => simp
  | cons b rest ih => cases i <;> simp [hf, ih]

namespace State

theorem find?_bare (s : State α) (scope : Scope) (name : String) :
    s.bare.find? scope name = (s.find? scope name).map (·.map Atom.bare) := by
  cases scope with
  | global => exact Table.get?_map _ _ _
  | voice =>
    rw [find?, find?]
    dsimp only [bare]
    rw [Table.get?_map, Table.get?_map, Option.map_or]

theorem bind_bare (s : State α) (scope : Scope) (name : String) (value : Value α) :
    (s.bind scope name value).bare = s.bare.bind scope name (value.map Atom.bare) := by
  cases scope <;> simp only [bind, bare, Table.map_put]

theorem add_bare (s : State α) (d : Draft α) : (s.add d).bare = s.bare.add d.bare := by
  simp only [add, bare, List.map_append, List.map_cons, List.map_nil]

theorem mix_bare (s : State α) (id socket : Nat) (more : List (Contribution α)) :
    (s.mix id socket more).bare = s.bare.mix id socket (more.map Contribution.bare) := by
  simp only [mix, bare, mk.injEq, and_self, and_true]
  refine map_modify (fun d => ?_) s.objects id
  simp only [Draft.bare, Draft.mk.injEq, and_self, and_true, true_and]
  exact map_modify (fun mix => List.map_append) d.mixes socket

end State

/-- The second piece of work builds without places what the first builds with them. -/
def Blind (f : β → γ) (w : Work α β) (w' : Work α γ) : Prop :=
  ∀ s, w'.run s.bare = (((w.run s).1.map f).mapError Located.bare, (w.run s).2.bare)

section Steps
variable {f : β → γ} {w : Work α β} {w' : Work α γ}

theorem Blind.pure (value : β) : Blind f (Pure.pure value : Work α β) (Pure.pure (f value)) :=
  fun _ => rfl

theorem blind_fail (f : β → γ) (fault : Fault) (span : Option Span) :
    Blind f (fail fault span : Work α β) (fail fault (span.map Span.bare)) := fun _ => rfl

theorem Blind.bind {g : δ → ε} (h : Blind f w w') {next : β → Work α δ} {next' : γ → Work α ε}
    (hn : ∀ value, Blind g (next value) (next' (f value))) :
    Blind g (w >>= next) (w' >>= next') := by
  intro s
  rw [run_bind, run_bind, h s]
  rcases w.run s with ⟨fault | value, t⟩
  · rfl
  · exact hn value t

/-- What comes next may depend on what is built. -/
theorem Blind.get {next : State α → Work α β} {next' : State α → Work α γ}
    (h : ∀ s, (next' s.bare).run s.bare =
      ((((next s).run s).1.map f).mapError Located.bare, ((next s).run s).2.bare)) :
    Blind f (MonadState.get >>= next) (MonadState.get >>= next') := h

theorem blind_modify {change change' : State α → State α}
    (h : ∀ s, (change s).bare = change' s.bare) :
    Blind id (modify change : Work α Unit) (modify change') :=
  fun s => Prod.ext rfl (h s).symm

theorem blind_classUnder (catalog : Catalog) (name : String) (span : Option Span) :
    Blind id (classUnder catalog name span : Work α UnitClass)
      (classUnder catalog name (span.map Span.bare)) := by
  rw [classUnder, classUnder]
  split
  · exact .pure _
  · exact blind_fail _ _ _

theorem blind_addObject (cls : UnitClass) (scope : Scope) (origin : Origin) (span : Option Span) :
    Blind id (addObject cls scope origin span : Work α Ref)
      (addObject cls scope origin (span.map Span.bare)) := by
  intro s
  have hfresh : (Draft.fresh cls scope origin span : Draft α).bare =
      .fresh cls scope origin (span.map Span.bare) := by
    simp [Draft.bare, Draft.fresh]
  have hadd := s.add_bare (.fresh cls scope origin span)
  rw [hfresh] at hadd
  refine Prod.ext ?_ hadd.symm
  exact congrArg (fun n => Except.ok (⟨n, cls⟩ : Ref)) (List.length_map Draft.bare)

theorem blind_find (scope : Scope) (ident : Ident) :
    Blind (List.map Atom.bare) (find scope ident : Work α (Value α)) (find scope ident.bare) := by
  refine Blind.get fun s => ?_
  have hfind : s.bare.find? scope ident.bare.name =
      (s.find? scope ident.name).map (·.map Atom.bare) := State.find?_bare _ _ _
  rw [hfind]
  cases s.find? scope ident.name <;> rfl

theorem blind_findObject (scope : Scope) (part : Part) (ident : Ident) :
    Blind id (findObject scope part ident : Work α Ref) (findObject scope part ident.bare) := by
  refine (blind_find scope ident).bind fun value => ?_
  rcases value with _ | ⟨_ | _ | _ | _, _ | _⟩ <;> exact fun _ => rfl

theorem contributions_bare (a : Atom α) :
    contributions a.bare =
      ((contributions a).map (·.map Contribution.bare)).mapError Located.bare := by
  cases a with
  | object ref span =>
    rw [Atom.bare, contributions, contributions]
    cases ref.cls.canonicalOutput? "output" with
    | some name => rfl
    | none =>
      dsimp only
      split <;> rfl
  | _ => rfl

theorem blind_mixInto (object socket : Nat) (value : Value α) :
    Blind id (mixInto object socket value) (mixInto object socket (value.map Atom.bare)) := by
  induction value with
  | nil => exact .pure ()
  | cons atom rest ih =>
    rw [List.map_cons, mixInto, mixInto, contributions_bare]
    cases contributions atom with
    | error fault => exact fun _ => rfl
    | ok more => exact (blind_modify fun s => s.mix_bare object socket more).bind fun _ => ih

theorem spanOf_bare (v : Value α) : spanOf (v.map Atom.bare) = (spanOf v).map Span.bare := by
  have hspans : (v.map Atom.bare).filterMap Atom.span = (v.filterMap Atom.span).map Span.bare := by
    rw [List.filterMap_map, List.map_filterMap]
    refine congrArg (List.filterMap · v) (funext fun a => ?_)
    cases a <;> rfl
  have hjoin : ∀ spans : List Span, (spans.map Span.bare).foldl Span.join ⟨0, 0⟩ = ⟨0, 0⟩ := by
    intro spans
    induction spans with
    | nil => rfl
    | cons span rest ih => exact ih
  rw [spanOf, spanOf, hspans]
  cases v.filterMap Atom.span with
  | nil => rfl
  | cons first rest => exact congrArg some (hjoin rest)

theorem blind_plug (target : Ref) (socket : String) (value : Value α) :
    Blind id (plug target socket value) (plug target socket (value.map Atom.bare)) := by
  rw [plug, plug, spanOf_bare]
  split
  · exact blind_mixInto _ _ _
  · exact blind_fail _ _ _

theorem blind_connectSides (source : Value α) (target : Ref) (left right : Nat) :
    Blind id (connectSides source target left right)
      (connectSides (source.map Atom.bare) target left right) := by
  have both : Blind id
      (do mixInto target.id left source; mixInto target.id right source)
      (do
        mixInto target.id left (source.map Atom.bare)
        mixInto target.id right (source.map Atom.bare)) :=
    (blind_mixInto _ _ _).bind fun _ => blind_mixInto _ _ _
  rcases source with _ | ⟨_ | _ | _ | _, _ | _⟩ <;> try exact both
  next ref span =>
    rw [List.map_singleton, Atom.bare, connectSides, connectSides]
    split
    · exact blind_modify fun s => by rw [State.mix_bare, State.mix_bare]; rfl
    · exact both

theorem blind_connect (source target : Value α) (span : Span) :
    Blind id (connect source target span)
      (connect (source.map Atom.bare) (target.map Atom.bare) ⟨0, 0⟩) := by
  rcases target with _ | ⟨_ | _ | _ | _, _ | _⟩ <;> try exact blind_fail _ _ (some span)
  · next ref place =>
    rw [List.map_singleton, Atom.bare, connect, connect]
    split
    · exact blind_mixInto _ _ _
    · exact blind_connectSides _ _ _ _
    · exact blind_fail _ _ (some span)
  · exact blind_mixInto _ _ _

theorem blind_object (ref : Ref) (span : Span) :
    Blind (List.map Atom.bare) (Pure.pure [.object ref (some span)] : Work α (Value α))
      (Pure.pure [.object ref (some ⟨0, 0⟩)]) := .pure [Atom.object ref (some span)]

theorem blind_constant (value : α) (span : Span) :
    Blind (List.map Atom.bare) (Pure.pure [.constant value (some span)] : Work α (Value α))
      (Pure.pure [.constant value (some ⟨0, 0⟩)]) := .pure [Atom.constant value (some span)]

theorem blind_operatorObject (catalog : Catalog) (scope : Scope) (className : String)
    (span : Span) :
    Blind id (operatorObject catalog scope className span : Work α Ref)
      (operatorObject catalog scope className ⟨0, 0⟩) :=
  (blind_classUnder catalog className (some span)).bind fun cls =>
    blind_addObject cls scope .operator (some span)

theorem blind_addParameter (scope : Scope) (name : Ident) (value : Value α) :
    Blind id (addParameter scope name value)
      (addParameter scope name.bare (value.map Atom.bare)) := by
  have hother : Blind id (Pure.pure () : Work α Unit) (Pure.pure ()) := .pure ()
  rcases value with _ | ⟨_ | _ | _ | _, _ | _⟩ <;> try exact hother
  next ref span =>
    have hname : name.bare.isDiscard = name.isDiscard := rfl
    rw [List.map_singleton, Atom.bare, addParameter.eq_def, addParameter.eq_def]
    dsimp only
    rw [hname]
    split
    · exact hother
    · cases scope with
      | voice => exact blind_fail _ _ (some name.span)
      | global => exact blind_modify fun _ => rfl

theorem blind_define (scope : Scope) (name : Ident) (value : Value α) :
    Blind id (define scope name value) (define scope name.bare (value.map Atom.bare)) := by
  have hname : name.bare.isDiscard = name.isDiscard := rfl
  rw [define, define, hname]
  refine (blind_addParameter scope name value).bind fun _ => ?_
  split
  · exact .pure ()
  · exact blind_modify fun s => s.bind_bare scope name.name value

variable [Arithmetic α]

theorem blind_negate (catalog : Catalog) (scope : Scope) (value : Value α) (span : Span) :
    Blind (List.map Atom.bare) (negate catalog scope value span)
      (negate catalog scope (value.map Atom.bare) ⟨0, 0⟩) := by
  have hinverter : ∀ value : Value α, Blind (List.map Atom.bare)
      (do
        let object ← operatorObject catalog scope Builtin.inverter span
        plug object "input" value
        return [.object object (some span)] : Work α (Value α))
      (do
        let object ← operatorObject catalog scope Builtin.inverter ⟨0, 0⟩
        plug object "input" (value.map Atom.bare)
        return [.object object (some ⟨0, 0⟩)]) := fun value =>
    (blind_operatorObject catalog scope Builtin.inverter span).bind fun object =>
      (blind_plug object "input" value).bind fun _ => blind_object object span
  rcases value with _ | ⟨_ | _ | _ | _, _ | _⟩ <;> try exact hinverter _
  exact blind_constant _ span

theorem blind_scale (catalog : Catalog) (scope : Scope) (left right : Value α) (span : Span) :
    Blind (List.map Atom.bare) (scale catalog scope left right span)
      (scale catalog scope (left.map Atom.bare) (right.map Atom.bare) ⟨0, 0⟩) := by
  have hattenuator : ∀ left right : Value α, Blind (List.map Atom.bare)
      (do
        let object ← operatorObject catalog scope Builtin.attenuator span
        plug object "input" left
        plug object "amount" right
        return [.object object (some span)] : Work α (Value α))
      (do
        let object ← operatorObject catalog scope Builtin.attenuator ⟨0, 0⟩
        plug object "input" (left.map Atom.bare)
        plug object "amount" (right.map Atom.bare)
        return [.object object (some ⟨0, 0⟩)]) := fun left right =>
    (blind_operatorObject catalog scope Builtin.attenuator span).bind fun object =>
      (blind_plug object "input" left).bind fun _ => (blind_plug object "amount" right).bind fun _ =>
        blind_object object span
  rcases left with _ | ⟨_ | _ | _ | _, _ | _⟩ <;> try exact hattenuator _ _
  rcases right with _ | ⟨_ | _ | _ | _, _ | _⟩ <;> try exact hattenuator _ _
  exact blind_constant _ span

theorem blind_literal (value : Float) (unit : String) (span : Span) :
    Blind (List.map Atom.bare) (literal value unit span : Work α (Value α))
      (literal value unit ⟨0, 0⟩) := by
  rw [literal, literal]
  cases Quantity.ofLiteral? (Arithmetic.ofFloat value : α) unit with
  | some x => exact blind_constant x span
  | none =>
    have hwarn : Blind id (warn (.unknownUnit unit) (some span) : Work α Unit)
        (warn (.unknownUnit unit) (some ⟨0, 0⟩)) := blind_modify fun s => by
      simp [State.bare, Located.bare, Span.bare]
    exact hwarn.bind fun _ => blind_constant _ span

end Steps

section Expressions
variable [Arithmetic α] {catalog : Catalog} {scope : Scope}

/-- Building an expression without places. -/
private abbrev BlindExpr (α : Type) [Arithmetic α] (catalog : Catalog) (scope : Scope) (e : Expr) :
    Prop :=
  Blind (List.map Atom.bare) (buildExpr catalog scope e : Work α (Value α))
    (buildExpr catalog scope e.bare)

private theorem blind_args {args : List (Arg Expr)}
    (h : ∀ arg ∈ args, BlindExpr α catalog scope arg.value) (object : Ref) (position : Nat) :
    Blind id (buildArgs catalog scope object position args : Work α Unit)
      (buildArgs catalog scope object position (bareArgs args)) := by
  induction args generalizing position with
  | nil =>
    rw [bareArgs, buildArgs]
    exact .pure ()
  | cons arg rest ih =>
    obtain ⟨label, value⟩ := arg
    have hv := h _ List.mem_cons_self
    have hr := ih fun arg ha => h arg (List.mem_cons_of_mem _ ha)
    cases label with
    | none =>
      rw [bareArgs, Option.map_none, buildArgs, buildArgs, Expr.span_bare]
      split
      · exact blind_fail _ _ (some value.span)
      · exact hv.bind fun built => (blind_plug object _ built).bind fun _ => hr (position + 1)
    | some label =>
      have hname : label.bare.socket.name = label.socket.name := rfl
      rw [bareArgs, Option.map_some, buildArgs, buildArgs, Expr.span_bare, hname]
      split
      · exact blind_fail _ _ (some value.span)
      · exact hv.bind fun built => (blind_plug object _ built).bind fun _ => hr position

private theorem blind_construction {args : List (Arg Expr)}
    (h : ∀ arg ∈ args, BlindExpr α catalog scope arg.value) (className : Ident)
    (name : Option Ident) (span : Span) :
    Blind (List.map Atom.bare)
      (buildConstruction catalog scope ⟨className, name, args, span⟩ : Work α (Value α))
      (buildConstruction catalog scope
        ⟨className.bare, name.map Ident.bare, bareArgs args, ⟨0, 0⟩⟩) := by
  rw [buildConstruction, buildConstruction]
  refine (blind_classUnder catalog className.name (some className.span)).bind fun cls => ?_
  refine (blind_addObject cls scope .written (some span)).bind fun object => ?_
  refine (blind_args h object 0).bind fun _ => ?_
  cases name with
  | none => exact blind_object object span
  | some name =>
    exact (blind_define scope name [.object object (some span)]).bind fun _ =>
      blind_object object span

theorem blind_buildExpr (catalog : Catalog) (scope : Scope) (e : Expr) :
    BlindExpr α catalog scope e := by
  induction e using Expr.induction (fun args => ∀ arg ∈ args,
      BlindExpr α catalog scope arg.value) with
  | error span =>
    rw [BlindExpr, Expr.bare, buildExpr, buildExpr]
    exact blind_fail _ _ (some span)
  | number value unit span =>
    rw [BlindExpr, Expr.bare, buildExpr, buildExpr]
    exact blind_literal value unit span
  | unary sign operand span ih =>
    rw [BlindExpr, Expr.bare, buildExpr, buildExpr]
    refine Blind.bind ih fun value => ?_
    cases sign with
    | plus => exact .pure value
    | minus => exact blind_negate catalog scope value span
  | binary op left right span ihl ihr =>
    rw [BlindExpr, Expr.bare, buildExpr, buildExpr]
    refine Blind.bind ihl fun left => Blind.bind ihr fun right => ?_
    cases op with
    | add =>
      rw [← List.map_append]
      exact .pure _
    | subtract =>
      refine (blind_negate catalog scope right span).bind fun negative => ?_
      rw [← List.map_append]
      exact .pure _
    | multiply => exact blind_scale catalog scope left right span
  | mapping polarity source low high span ihs ihl ihh =>
    rw [BlindExpr, Expr.bare, buildExpr, buildExpr]
    exact Blind.bind ihs fun source => Blind.bind ihl fun low => Blind.bind ihh fun high =>
      (blind_operatorObject catalog scope (mappingClass polarity) span).bind fun object =>
        (blind_plug object "source" source).bind fun _ =>
          (blind_plug object "from" low).bind fun _ => (blind_plug object "to" high).bind fun _ =>
            blind_object object span
  | construction className name values span ih =>
    rw [BlindExpr, Expr.bare, Construction.bare, buildExpr, buildExpr]
    exact blind_construction ih className name span
  | socket object socket span =>
    rw [BlindExpr, Expr.bare, buildExpr, buildExpr]
    refine (blind_findObject scope .socket object).bind fun ref => ?_
    have hname : socket.bare.name = socket.name := rfl
    rw [id_eq, hname]
    split
    · exact .pure [Atom.socket ref.id _ (some span)]
    · exact blind_fail _ _ (some socket.span)
  | output object output span =>
    rw [BlindExpr, Expr.bare, buildExpr, buildExpr]
    refine (blind_findObject scope .output object).bind fun ref => ?_
    have hname : output.bare.name = output.name := rfl
    rw [id_eq, hname]
    split
    · exact .pure [Atom.output ref.id _ (some span)]
    · exact blind_fail _ _ (some output.span)
  | name ident =>
    rw [BlindExpr, Expr.bare, buildExpr, buildExpr]
    exact blind_find scope ident
  | nil arg ha => exact absurd ha List.not_mem_nil
  | cons label value rest ihv ihr arg ha =>
    rcases List.mem_cons.mp ha with rfl | ha
    · exact ihv
    · exact ihr arg ha

theorem blind_buildConstruction (catalog : Catalog) (scope : Scope) (c : Construction Expr) :
    Blind (List.map Atom.bare) (buildConstruction catalog scope c : Work α (Value α))
      (buildConstruction catalog scope c.bare) := by
  obtain ⟨className, name, args, span⟩ := c
  exact blind_construction (fun arg _ => blind_buildExpr catalog scope arg.value) className name span

private theorem blind_buildLinks (catalog : Catalog) (scope : Scope) (previous : Value α)
    (links : List Expr) :
    Blind id (buildLinks catalog scope previous links)
      (buildLinks catalog scope (previous.map Atom.bare) (links.map Expr.bare)) := by
  induction links generalizing previous with
  | nil => exact .pure ()
  | cons link rest ih =>
    rw [List.map_cons, buildLinks, buildLinks, Expr.span_bare]
    exact Blind.bind (blind_buildExpr catalog scope link) fun next =>
      (blind_connect previous next link.span).bind fun _ => ih next

theorem blind_buildStatement (catalog : Catalog) (scope : Scope) (statement : Statement) :
    Blind id (buildStatement catalog scope statement : Work α Unit)
      (buildStatement catalog scope statement.bare) := by
  cases statement with
  | error span => exact blind_fail _ _ (some span)
  | definition name value span =>
    exact Blind.bind (blind_buildExpr catalog scope value) fun built => blind_define scope name built
  | construction c => exact (blind_buildConstruction catalog scope c).bind fun _ => .pure ()
  | chain source steps target span =>
    have hlinks : steps.map Expr.bare ++ [target.bare] = (steps ++ [target]).map Expr.bare := by
      rw [List.map_append, List.map_singleton]
    rw [Statement.bare, buildStatement, buildStatement, hlinks]
    exact Blind.bind (blind_buildExpr catalog scope source) fun first =>
      blind_buildLinks catalog scope first (steps ++ [target])

omit [Arithmetic α] in
theorem Blind.after {w w' : Work α Unit} (h : Blind id w w') (s : State α) :
    s.bare.after w' = (s.after w).bare := by
  rw [State.after, State.after, h s]
  rcases w.run s with ⟨fault | value, t⟩
  · change { t.bare with faults := t.faults.map Located.bare ++ [fault.bare] } = _
    simp [State.bare]
  · rfl

theorem buildLines_bare (catalog : Catalog) (s : State α) (lines : List Line) :
    buildLines catalog s.bare (lines.map fun line => ⟨line.scope, line.statement.bare⟩) =
      (buildLines catalog s lines).bare := by
  induction lines generalizing s with
  | nil => rfl
  | cons line rest ih =>
    rw [List.map_cons, buildLines, buildLines, List.foldl_cons, List.foldl_cons,
      (blind_buildStatement catalog line.scope line.statement).after]
    exact ih _

end Expressions

theorem blind_addBuiltin (cls : UnitClass) (scope : Scope) (name : String) :
    Blind id (addBuiltin cls scope name : Work α Unit) (addBuiltin cls scope name) :=
  (blind_addObject cls scope .builtin none).bind fun object =>
    blind_modify fun s => s.bind_bare scope name [.object object none]

private theorem blind_addBuiltins (cls : UnitClass) (scope : Scope) (names : List String) :
    Blind id (addBuiltins cls scope names : Work α Unit) (addBuiltins cls scope names) := by
  induction names with
  | nil => exact .pure ()
  | cons name rest ih => exact (blind_addBuiltin cls scope name).bind fun _ => ih

theorem blind_start (catalog : Catalog) : Blind id (start catalog : Work α Unit) (start catalog) :=
  (blind_classUnder catalog _ none).bind fun input =>
    (blind_classUnder catalog _ none).bind fun output =>
      (blind_addBuiltins input .global _).bind fun _ =>
        (blind_addBuiltin output .global _).bind fun _ => blind_addBuiltins input .voice _

end Building
end Patchbay
