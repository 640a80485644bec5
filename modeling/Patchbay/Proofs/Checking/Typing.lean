import Patchbay.Checking.Run
import Patchbay.Proofs.Program.ErrorFree
import Patchbay.Proofs.Program.Induction

/-! Typed programs, told by rules, and that a check which finds nothing wrong means a typed
program. -/
namespace Patchbay.Checking

/-- The names once an object is there. Only a name that is not `_` is bound. -/
def Names.declare (names : Names) (scope : Scope) (name : Option Ident) (type : ValueType) :
    Names :=
  match name with
  | none => names
  | some name =>
    if name.isDiscard then names
    else names.put scope name.name ⟨.declared name.span, type⟩

/-- What has a type: an expression, or the arguments of a class from some place on. -/
inductive Judgment where
  | expr (e : Expr) (type : ValueType)
  | args (c : UnitClass) (position : Nat) (args : List (Arg Expr))

/-- From the names before to the names behind, every operand and argument is a signal, every class,
name, socket and output is known, and arguments have sockets to go to. -/
inductive Typed (catalog : Catalog) (scope : Scope) : Names → Judgment → Names → Prop where
  | number {names value unit span} :
      Typed catalog scope names (.expr (.number value unit span) .source) names
  | unary {names names' sign operand span type} :
      Typed catalog scope names (.expr operand type) names' → type.direction.output = true →
      Typed catalog scope names (.expr (.unary sign operand span) .source) names'
  | binary {names names₁ names₂ op left right span l r} :
      Typed catalog scope names (.expr left l) names₁ → l.direction.output = true →
      Typed catalog scope names₁ (.expr right r) names₂ → r.direction.output = true →
      Typed catalog scope names (.expr (.binary op left right span) .source) names₂
  | mapping {names names₁ names₂ names₃ polarity source low high span s l h} :
      Typed catalog scope names (.expr source s) names₁ → s.direction.output = true →
      Typed catalog scope names₁ (.expr low l) names₂ → l.direction.output = true →
      Typed catalog scope names₂ (.expr high h) names₃ → h.direction.output = true →
      Typed catalog scope names (.expr (.mapping polarity source low high span) .source) names₃
  | construction {names names' className name args span c} :
      catalog.resolve? className.name = some c →
      Typed catalog scope names (.args c 0 args) names' →
      Typed catalog scope names (.expr (.construction ⟨className, name, args, span⟩) (.object c))
        (names'.declare scope name (.object c))
  | socket {names object socket span d className c} :
      names.find? scope object.name = some d → d.type.className = some className →
      catalog.resolve? className = some c → c.hasSocket socket.name = true →
      Typed catalog scope names (.expr (.socket object socket span) .sink) names
  | output {names object output span d className c} :
      names.find? scope object.name = some d → d.type.className = some className →
      catalog.resolve? className = some c → c.hasOutput output.name = true →
      Typed catalog scope names (.expr (.output object output span) .source) names
  | name {names ident d} :
      names.find? scope ident.name = some d →
      Typed catalog scope names (.expr (.name ident) d.type) names
  | nil {names c position} : Typed catalog scope names (.args c position []) names
  | positional {names names₁ names₂ c position socket value rest type} :
      c.positionalSocket? position = some socket →
      Typed catalog scope names (.expr value type) names₁ → type.direction.output = true →
      Typed catalog scope names₁ (.args c (position + 1) rest) names₂ →
      Typed catalog scope names (.args c position (⟨none, value⟩ :: rest)) names₂
  | labelled {names names₁ names₂ c position label socket value rest type} :
      c.canonicalSocket? label.socket.name = some socket →
      Typed catalog scope names (.expr value type) names₁ → type.direction.output = true →
      Typed catalog scope names₁ (.args c position rest) names₂ →
      Typed catalog scope names (.args c position (⟨some label, value⟩ :: rest)) names₂

/-- The links of a chain behind its source: all take signals, and all but the last give some. -/
inductive TypedLinks (catalog : Catalog) (scope : Scope) : Names → List Expr → Names → Prop where
  | last {names names' target type} :
      Typed catalog scope names (.expr target type) names' → type.direction.input = true →
      TypedLinks catalog scope names [target] names'
  | step {names names₁ names₂ link rest type} :
      Typed catalog scope names (.expr link type) names₁ → type.direction.input = true →
      type.direction.output = true → TypedLinks catalog scope names₁ rest names₂ →
      TypedLinks catalog scope names (link :: rest) names₂

inductive TypedStatement (catalog : Catalog) (scope : Scope) : Names → Statement → Names → Prop where
  | definition {names names' name value span type} :
      Typed catalog scope names (.expr value type) names' → name.isDiscard = false →
      TypedStatement catalog scope names (.definition name value span)
        (names'.put scope name.name ⟨.declared name.span, type⟩)
  | construction {names names' c type} :
      Typed catalog scope names (.expr (.construction c) type) names' →
      TypedStatement catalog scope names (.construction c) names'
  | chain {names names₁ names₂ source steps target span type} :
      Typed catalog scope names (.expr source type) names₁ → type.direction.output = true →
      TypedLinks catalog scope names₁ (steps ++ [target]) names₂ →
      TypedStatement catalog scope names (.chain source steps target span) names₂

inductive TypedLines (catalog : Catalog) : Names → List Line → Names → Prop where
  | nil {names} : TypedLines catalog names [] names
  | cons {names names₁ names₂ line rest} :
      TypedStatement catalog line.scope names line.statement names₁ →
      TypedLines catalog names₁ rest names₂ → TypedLines catalog names (line :: rest) names₂

/-- The table that lines of a scope put no names into. -/
def Names.others (names : Names) : Scope → Table Declaration
  | .global => names.voice
  | .voice => names.global

section Scopes
variable {catalog : Catalog} {scope : Scope} {names names' : Names}

theorem Names.others_put (names : Names) (scope : Scope) (name : String) (d : Declaration) :
    (names.put scope name d).others scope = names.others scope := by
  cases scope <;> rfl

theorem Typed.others {judgment : Judgment} (h : Typed catalog scope names judgment names') :
    names'.others scope = names.others scope := by
  induction h with
  | number | socket | output | name | nil => rfl
  | unary _ _ ih => exact ih
  | binary _ _ _ _ ihl ihr => exact ihr.trans ihl
  | mapping _ _ _ _ _ _ ihs ihl ihh => exact ihh.trans (ihl.trans ihs)
  | construction _ _ ih =>
    rw [Names.declare.eq_def]
    split
    · exact ih
    · split
      · exact ih
      · rw [Names.others_put]
        exact ih
  | positional _ _ _ _ ihv ihr => exact ihr.trans ihv
  | labelled _ _ _ _ ihv ihr => exact ihr.trans ihv

theorem TypedLinks.others {links : List Expr} (h : TypedLinks catalog scope names links names') :
    names'.others scope = names.others scope := by
  induction h with
  | last h _ => exact h.others
  | step h _ _ _ ih => exact ih.trans h.others

theorem TypedStatement.others {statement : Statement}
    (h : TypedStatement catalog scope names statement names') :
    names'.others scope = names.others scope := by
  cases h with
  | definition h _ =>
    rw [Names.others_put]
    exact h.others
  | construction h => exact h.others
  | chain h _ hlinks => exact hlinks.others.trans h.others

end Scopes

section Walks
variable {β γ : Type} {w : Walk β} {post : Names → β → Names → Prop}

/-- The walk keeps the faults found before. If none are there at its end, its value and the names
before and behind it are as in `post`. -/
def Finds (w : Walk β) (post : Names → β → Names → Prop) : Prop :=
  ∀ s, s.faults <+: (w.run s).2.faults ∧
    ((w.run s).2.faults = [] → post s.names (w.run s).1 (w.run s).2.names)

theorem Finds.bind (h : Finds w post) {next : β → Walk γ} {post' : β → Names → γ → Names → Prop}
    (hn : ∀ value, Finds (next value) (post' value)) :
    Finds (w >>= next) fun names result names' =>
      ∃ value names₁, post names value names₁ ∧ post' value names₁ result names' := by
  intro s
  obtain ⟨hgrow, hpost⟩ := h s
  obtain ⟨hgrow', hpost'⟩ := hn (w.run s).1 (w.run s).2
  refine ⟨hgrow.trans hgrow', fun hf => ⟨_, _, hpost ?_, hpost' hf⟩⟩
  have hnil : (w.run s).2.faults <+: [] := hf ▸ hgrow'
  exact List.prefix_nil.mp hnil

theorem Finds.imp (h : Finds w post) {post' : Names → β → Names → Prop}
    (hp : ∀ names value names', post names value names' → post' names value names') :
    Finds w post' := fun s => ⟨(h s).1, fun hf => hp _ _ _ ((h s).2 hf)⟩

theorem finds_pure (value : β) :
    Finds (pure value : Walk β) fun names result names' => result = value ∧ names' = names :=
  fun _ => ⟨List.prefix_rfl, fun _ => ⟨rfl, rfl⟩⟩

theorem finds_report (fault : Fault) (span : Span) : Finds (report fault span) fun _ _ _ => False :=
  fun _ => ⟨List.prefix_append _ _, fun hf => List.cons_ne_nil _ _ (List.append_eq_nil_iff.mp hf).2⟩

theorem finds_require (condition : Bool) (fault : Fault) (span : Span) :
    Finds (require condition fault span) fun names _ names' =>
      condition = true ∧ names' = names := by
  rw [require]
  split
  · next hc => exact (finds_pure ()).imp fun _ _ _ h => ⟨hc, h.2⟩
  · exact (finds_report fault span).imp fun _ _ _ h => h.elim

theorem finds_get (next : State → Walk β)
    (h : ∀ s, s.faults <+: ((next s).run s).2.faults ∧
      (((next s).run s).2.faults = [] → post s.names ((next s).run s).1 ((next s).run s).2.names)) :
    Finds (get >>= next) post := h

/-- Where a walk finds something or reports, what comes next can count on what was found. -/
theorem Finds.found {w : Walk (Option β)} {known : Names → β → Prop}
    (h : Finds w fun names found names' => names' = names ∧ ∃ d, found = some d ∧ known names d)
    {next : Option β → Walk γ} {q : β → Names → γ → Names → Prop}
    (hnone : Finds (next none) fun _ _ _ => True) (hsome : ∀ d, Finds (next (some d)) (q d)) :
    Finds (w >>= next) fun names result names' =>
      ∃ d, known names d ∧ q d names result names' := by
  refine (h.bind fun found => (?_ : Finds _ fun names result names' =>
    ∀ d, found = some d → q d names result names')).imp ?_
  · cases found with
    | none => exact hnone.imp fun _ _ _ _ d hd => by cases hd
    | some d =>
      refine (hsome d).imp ?_
      rintro names result names' hpost _ ⟨⟩
      exact hpost
  · rintro names result names' ⟨found, _, ⟨rfl, d, rfl, hd⟩, hpost⟩
    exact ⟨d, hd, hpost d rfl⟩

theorem finds_find (scope : Scope) (ident : Ident) :
    Finds (find scope ident) fun names found names' =>
      names' = names ∧ ∃ d, found = some d ∧ names.find? scope ident.name = some d := by
  rw [find]
  split
  · refine ((finds_report _ _).bind fun _ => finds_pure none).imp ?_
    rintro names found names' ⟨_, _, hfalse, _⟩
    exact hfalse.elim
  · refine finds_get _ fun s => ?_
    cases hd : s.names.find? scope ident.name with
    | some d => exact ⟨List.prefix_rfl, fun _ => ⟨rfl, d, rfl, rfl⟩⟩
    | none =>
      refine ⟨List.prefix_append _ _, fun hf => ?_⟩
      exact absurd (List.append_eq_nil_iff.mp hf).2 (List.cons_ne_nil _ _)

/-- A name stands for an object of a class. -/
def OfClass (catalog : Catalog) (scope : Scope) (name : String) (names : Names) (c : UnitClass) :
    Prop :=
  ∃ d className, names.find? scope name = some d ∧ d.type.className = some className ∧
    catalog.resolve? className = some c

theorem finds_findObject (catalog : Catalog) (scope : Scope) (part : Part) (object : Ident) :
    Finds (findObject catalog scope part object) fun names found names' =>
      names' = names ∧ ∃ c, found = some c ∧ OfClass catalog scope object.name names c := by
  refine ((finds_find scope object).found (q := fun d names found names' => names' = names ∧
    ∃ className c, found = some c ∧ d.type.className = some className ∧
      catalog.resolve? className = some c) ?_ fun d => ?_).imp ?_
  · exact (finds_pure none).imp fun _ _ _ _ => trivial
  · dsimp only
    split
    · next c hc =>
      obtain ⟨className, hclass, hc⟩ := Option.bind_eq_some_iff.mp hc
      refine (finds_pure (some c)).imp ?_
      rintro names result names' ⟨rfl, rfl⟩
      exact ⟨rfl, className, c, rfl, hclass, hc⟩
    · refine ((finds_report _ _).bind fun _ => finds_pure none).imp ?_
      rintro names result names' ⟨_, _, hfalse, _⟩
      exact hfalse.elim
  · rintro names result names' ⟨d, hd, hn, className, c, hr, hclass, hc⟩
    exact ⟨hn, c, hr, d, className, hd, hclass, hc⟩

theorem finds_define (scope : Scope) (name : Ident) (type : ValueType) :
    Finds (define scope name type) fun names _ names' => name.isDiscard = false ∧
      names' = names.put scope name.name ⟨.declared name.span, type⟩ := by
  rw [define]
  split
  · exact (finds_report _ _).imp fun _ _ _ h => h.elim
  · next hd =>
    refine finds_get _ fun s => ?_
    split
    · refine ⟨List.prefix_append _ _, fun hf => ?_⟩
      exact absurd (List.append_eq_nil_iff.mp hf).2 (List.cons_ne_nil _ _)
    · exact ⟨List.prefix_rfl, fun _ => ⟨Bool.eq_false_iff.mpr hd, rfl⟩⟩

theorem finds_defineObject (scope : Scope) (name : Option Ident) (type : ValueType) :
    Finds (defineObject scope name type) fun names _ names' =>
      names' = names.declare scope name type := by
  cases name with
  | none => exact (finds_pure ()).imp fun _ _ _ h => h.2
  | some name =>
    rw [defineObject]
    split
    · next hd =>
      refine (finds_pure ()).imp ?_
      rintro names _ names' ⟨_, rfl⟩
      rw [Names.declare, if_pos hd]
    · refine (finds_define scope name type).imp ?_
      rintro names _ names' ⟨hd, rfl⟩
      rw [Names.declare, hd, if_neg Bool.false_ne_true]

theorem finds_assign (assigned : List String) (socket : String) (fault : Fault) (span : Span) :
    Finds (assign assigned socket fault span) fun names _ names' => names' = names := by
  refine ((finds_require _ fault span).bind fun _ => finds_pure _).imp ?_
  rintro names _ names' ⟨_, _, ⟨_, rfl⟩, _, rfl⟩
  rfl

theorem finds_checked (condition : Bool) (fault : Fault) (span : Span) (value : β) :
    Finds (do require condition fault span; return value) fun names result names' =>
      condition = true ∧ result = value ∧ names' = names := by
  refine ((finds_require condition fault span).bind fun _ => finds_pure value).imp ?_
  rintro names _ _ ⟨_, _, ⟨hc, rfl⟩, rfl, rfl⟩
  exact ⟨hc, rfl, rfl⟩

/-- Noting a type changes neither faults nor names. -/
theorem finds_noted {w : Walk ValueType} {post : Names → ValueType → Names → Prop} (span : Span)
    (h : Finds w post) : Finds (do let type ← w; note span type; return type) post := h

end Walks

private abbrev Reads (catalog : Catalog) (scope : Scope) (e : Expr) :
    Names → ValueType → Names → Prop := fun names type names' =>
  e.ErrorFree → Typed catalog scope names (.expr e type) names'

private theorem finds_operand {catalog : Catalog} {scope : Scope} {e : Expr}
    (h : Finds (checkExpr catalog scope e) (Reads catalog scope e)) (fault : Fault) (span : Span) :
    Finds (do
      let type ← checkExpr catalog scope e
      require type.direction.output fault span) fun names _ names' => e.ErrorFree →
        ∃ type, Typed catalog scope names (.expr e type) names' ∧ type.direction.output = true := by
  refine (h.bind fun type => finds_require type.direction.output fault span).imp ?_
  rintro names _ names' ⟨type, _, htyped, hout, rfl⟩ he
  exact ⟨type, htyped he, hout⟩

private abbrev ReadsArgs (catalog : Catalog) (scope : Scope) (c : UnitClass) (position : Nat)
    (args : List (Arg Expr)) : Names → Unit → Names → Prop := fun names _ names' =>
  position + args.countP (·.label.isNone) ≤ c.positional.length →
    (∀ arg ∈ args, arg.value.ErrorFree) → Typed catalog scope names (.args c position args) names'

section Args
variable {catalog : Catalog} {scope : Scope} {value : Expr} {rest : List (Arg Expr)}
  {c : UnitClass} {position : Nat}

private theorem finds_positional
    (hv : Finds (checkExpr catalog scope value) (Reads catalog scope value))
    (hr : ∀ assigned, Finds (checkArgs catalog scope c (position + 1) assigned rest)
      (ReadsArgs catalog scope c (position + 1) rest)) (assigned : List String) :
    Finds (checkArgs catalog scope c position assigned (⟨none, value⟩ :: rest))
      (ReadsArgs catalog scope c position (⟨none, value⟩ :: rest)) := by
  rw [checkArgs]
  refine (hv.bind fun type => (finds_require type.direction.output _ _).bind fun _ =>
    (?_ : Finds _ (ReadsArgs catalog scope c (position + 1) rest))).imp ?_
  · dsimp only
    split
    · exact hr assigned
    · refine ((finds_assign assigned _ _ _).bind fun _ => hr _).imp ?_
      rintro names _ names' ⟨_, _, rfl, hrest⟩
      exact hrest
  · rintro names _ _ ⟨type, _, hv, _, _, ⟨hout, rfl⟩, hr⟩ hcount he
    rw [List.countP_cons_of_pos rfl] at hcount
    have hlt : position < c.positional.length := by omega
    have htyped := hv (he _ List.mem_cons_self)
    have hrest := hr (by omega) fun arg ha => he arg (List.mem_cons_of_mem _ ha)
    exact .positional (List.getElem?_eq_getElem hlt) htyped hout hrest

private theorem finds_labelled {label : Label}
    (hv : Finds (checkExpr catalog scope value) (Reads catalog scope value))
    (hr : ∀ assigned, Finds (checkArgs catalog scope c position assigned rest)
      (ReadsArgs catalog scope c position rest)) (assigned : List String) :
    Finds (checkArgs catalog scope c position assigned (⟨some label, value⟩ :: rest))
      (ReadsArgs catalog scope c position (⟨some label, value⟩ :: rest)) := by
  rw [checkArgs]
  refine (hv.bind fun type => (finds_require type.direction.output _ _).bind fun _ =>
    (?_ : Finds _ fun names result names' =>
      ReadsArgs catalog scope c position rest names result names' ∧
        ∃ socket, c.canonicalSocket? label.socket.name = some socket)).imp ?_
  · dsimp only
    split
    · refine ((finds_report _ _).bind fun _ => hr assigned).imp ?_
      rintro _ _ _ ⟨_, _, hfalse, _⟩
      exact hfalse.elim
    · next socket hs =>
      refine ((finds_assign assigned _ _ _).bind fun _ => hr _).imp ?_
      rintro names _ names' ⟨_, _, rfl, hrest⟩
      exact ⟨hrest, socket, hs⟩
  · rintro names _ _ ⟨type, _, hv, _, _, ⟨hout, rfl⟩, hr, socket, hs⟩ hcount he
    rw [List.countP_cons_of_neg (by simp)] at hcount
    have htyped := hv (he _ List.mem_cons_self)
    have hrest := hr hcount fun arg ha => he arg (List.mem_cons_of_mem _ ha)
    exact .labelled hs htyped hout hrest

end Args

theorem finds_checkExpr (catalog : Catalog) (scope : Scope) (e : Expr) :
    Finds (checkExpr catalog scope e) (Reads catalog scope e) := by
  induction e using Expr.induction (fun args =>
      (∀ c position assigned, Finds (checkArgs catalog scope c position assigned args)
        (ReadsArgs catalog scope c position args)) ∧
      Finds (checkValues catalog scope args) fun _ _ _ => True) with
  | error span =>
    rw [checkExpr]
    refine finds_noted _ ((finds_pure _).imp fun _ _ _ _ he => ?_)
    cases he
  | number value unit span =>
    rw [checkExpr]
    refine finds_noted _ ((finds_pure _).imp ?_)
    rintro names _ _ ⟨rfl, rfl⟩ _
    exact .number
  | unary sign operand span ih =>
    rw [checkExpr]
    refine finds_noted _ (((finds_operand ih _ _).bind fun _ => finds_pure _).imp ?_)
    rintro names _ _ ⟨_, _, h, rfl, rfl⟩ he
    cases he with
    | unary _ _ ho =>
      obtain ⟨type, htyped, hout⟩ := h ho
      exact .unary htyped hout
  | binary op left right span ihl ihr =>
    rw [checkExpr]
    refine finds_noted _ (((finds_operand ihl _ _).bind fun _ =>
      (finds_operand ihr _ _).bind fun _ => finds_pure _).imp ?_)
    rintro names _ _ ⟨_, _, hl, _, _, hr, rfl, rfl⟩ he
    cases he with
    | binary _ _ hle hre =>
      obtain ⟨_, htypedl, houtl⟩ := hl hle
      obtain ⟨_, htypedr, houtr⟩ := hr hre
      exact .binary htypedl houtl htypedr houtr
  | mapping polarity source low high span ihs ihl ihh =>
    rw [checkExpr]
    refine finds_noted _ (((finds_operand ihs _ _).bind fun _ => (finds_operand ihl _ _).bind fun _ =>
      (finds_operand ihh _ _).bind fun _ => finds_pure _).imp ?_)
    rintro names _ _ ⟨_, _, hs, _, _, hl, _, _, hh, rfl, rfl⟩ he
    cases he with
    | mapping _ _ hse hle hhe =>
      obtain ⟨_, htypeds, houts⟩ := hs hse
      obtain ⟨_, htypedl, houtl⟩ := hl hle
      obtain ⟨_, htypedh, houth⟩ := hh hhe
      exact .mapping htypeds houts htypedl houtl htypedh houth
  | construction className name values span ih =>
    rw [checkExpr]
    refine finds_noted _ ?_
    rw [checkConstruction]
    split
    · refine ((finds_report _ _).bind fun _ => ih.2.bind fun _ => finds_pure _).imp ?_
      rintro names _ _ ⟨_, _, hfalse, _⟩
      exact hfalse.elim
    · next c hc =>
      refine ((finds_require _ _ _).bind fun _ => (ih.1 c 0 []).bind fun _ =>
        (finds_defineObject scope name (.object c)).bind fun _ => finds_pure _).imp ?_
      rintro names _ _ ⟨_, _, ⟨hcount, rfl⟩, _, _, hargs, _, _, rfl, rfl, rfl⟩ he
      cases he with
      | construction _ _ _ he =>
        refine .construction hc (hargs ?_ he)
        rw [Nat.zero_add]
        exact of_decide_eq_true hcount
  | socket object socket span =>
    rw [checkExpr]
    refine ((finds_findObject catalog scope .socket object).found (q := fun c names type names' =>
      c.hasSocket socket.name = true ∧ type = .sink ∧ names' = names) ?_ fun c => ?_).imp ?_
    · exact finds_noted span ((finds_pure ValueType.sink).imp fun _ _ _ _ => trivial)
    · exact finds_noted span (finds_checked (c.hasSocket socket.name) _ _ ValueType.sink)
    · rintro names _ _ ⟨c, ⟨d, className, hd, hclass, hc⟩, hsocket, rfl, rfl⟩ _
      exact .socket hd hclass hc hsocket
  | output object output span =>
    rw [checkExpr]
    refine ((finds_findObject catalog scope .output object).found (q := fun c names type names' =>
      c.hasOutput output.name = true ∧ type = .source ∧ names' = names) ?_ fun c => ?_).imp ?_
    · exact finds_noted span ((finds_pure ValueType.source).imp fun _ _ _ _ => trivial)
    · exact finds_noted span (finds_checked (c.hasOutput output.name) _ _ ValueType.source)
    · rintro names _ _ ⟨c, ⟨d, className, hd, hclass, hc⟩, houtput, rfl, rfl⟩ _
      exact .output hd hclass hc houtput
  | name ident =>
    rw [checkExpr]
    refine ((finds_find scope ident).found (q := fun d names type names' =>
      type = d.type ∧ names' = names) ?_ fun d => ?_).imp ?_
    · exact finds_noted ident.span ((finds_pure ValueType.unknown).imp fun _ _ _ _ => trivial)
    · exact finds_noted ident.span (finds_pure d.type)
    · rintro names _ _ ⟨d, hd, rfl, rfl⟩ _
      exact .name hd
  | nil =>
    refine ⟨fun c position assigned => ?_, ?_⟩
    · rw [checkArgs]
      refine (finds_pure ()).imp ?_
      rintro names _ _ ⟨_, rfl⟩ _ _
      exact .nil
    · rw [checkValues]
      exact (finds_pure ()).imp fun _ _ _ _ => trivial
  | cons label value rest ihv ihr =>
    refine ⟨fun c position assigned => ?_, ?_⟩
    · cases label with
      | none => exact finds_positional ihv (fun assigned => ihr.1 c (position + 1) assigned) assigned
      | some label => exact finds_labelled ihv (fun assigned => ihr.1 c position assigned) assigned
    · rw [checkValues]
      exact (ihv.bind fun _ => ihr.2).imp fun _ _ _ _ => trivial

private theorem finds_checkSteps (catalog : Catalog) (scope : Scope) (steps : List Expr) :
    Finds (checkSteps catalog scope steps) fun names _ names₁ => (∀ e ∈ steps, e.ErrorFree) →
      ∀ (target : Expr) (type : ValueType) (names' : Names),
        Typed catalog scope names₁ (.expr target type) names' → type.direction.input = true →
          TypedLinks catalog scope names (steps ++ [target]) names' := by
  induction steps with
  | nil =>
    refine (finds_pure ()).imp ?_
    rintro names _ _ ⟨_, rfl⟩ _ target type names' htyped hin
    exact .last htyped hin
  | cons step rest ih =>
    rw [checkSteps]
    refine ((finds_checkExpr catalog scope step).bind fun type =>
      (finds_require type.direction.input _ _).bind fun _ =>
        (finds_require type.direction.output _ _).bind fun _ => ih).imp ?_
    rintro names _ _ ⟨type, _, hs, _, _, ⟨hin, rfl⟩, _, _, ⟨hout, rfl⟩, hr⟩ he
    intro target last names' htyped hlast
    have hrest := hr (fun e hm => he e (List.mem_cons_of_mem _ hm)) target last names' htyped hlast
    exact .step (hs (he step List.mem_cons_self)) hin hout hrest

theorem finds_checkStatement (catalog : Catalog) (scope : Scope) (statement : Statement) :
    Finds (checkStatement catalog scope statement) fun names _ names' =>
      statement.ErrorFree → TypedStatement catalog scope names statement names' := by
  cases statement with
  | error span => exact (finds_pure ()).imp fun _ _ _ _ he => he.elim
  | definition name value span =>
    refine ((finds_checkExpr catalog scope value).bind fun type =>
      finds_define scope name type).imp ?_
    rintro names _ _ ⟨type, _, hv, hname, rfl⟩ he
    exact .definition (hv he) hname
  | construction c =>
    have hc : Finds (checkConstruction catalog scope c) (Reads catalog scope (.construction c)) := by
      have hnoted := finds_checkExpr catalog scope (.construction c)
      rw [checkExpr] at hnoted
      exact hnoted
    refine (hc.bind fun _ => finds_pure ()).imp ?_
    rintro names _ _ ⟨type, _, hv, _, rfl⟩ he
    exact .construction (hv he)
  | chain source steps target span =>
    refine ((finds_checkExpr catalog scope source).bind fun type =>
      (finds_require type.direction.output _ _).bind fun _ =>
        (finds_checkSteps catalog scope steps).bind fun _ =>
          (finds_checkExpr catalog scope target).bind fun last =>
            finds_require last.direction.input _ _).imp ?_
    rintro names _ _ ⟨type, _, hs, _, _, ⟨hout, rfl⟩, _, _, hsteps, last, _, ht, hin, rfl⟩ he
    exact .chain (hs he.1) hout (hsteps he.2.1 target last _ (ht he.2.2) hin)

theorem finds_checkLines (catalog : Catalog) (lines : List Line) :
    Finds (checkLines catalog lines) fun names _ names' =>
      (∀ line ∈ lines, line.statement.ErrorFree) → TypedLines catalog names lines names' := by
  induction lines with
  | nil =>
    refine (finds_pure ()).imp ?_
    rintro names _ _ ⟨_, rfl⟩ _
    exact .nil
  | cons line rest ih =>
    refine ((finds_checkStatement catalog line.scope line.statement).bind fun _ => ih).imp ?_
    rintro names _ _ ⟨_, _, hs, hr⟩ he
    exact .cons (hs (he line List.mem_cons_self)) (hr fun l hl => he l (List.mem_cons_of_mem _ hl))

/-- A program without error nodes in which the check finds nothing wrong is typed. -/
theorem typedLines_of_check {catalog : Catalog} {program : Program} (he : program.ErrorFree)
    (h : (check catalog program).faults = []) :
    TypedLines catalog .builtin program.lines (check catalog program).names :=
  (finds_checkLines catalog program.lines ⟨.builtin, [], []⟩).2 h he

end Patchbay.Checking
