import Patchbay.Proofs.Program.Canonical

/-! Checking a program and its canonical form: the names, the types and the places of all faults are
the same. -/
namespace Patchbay.Checking
variable {β γ : Type}

/-- The same is known, but for the words of the faults. -/
structure State.Alike (s s' : State) : Prop where
  names : s'.names = s.names
  types : s'.types = s.types
  places : s'.faults.map Located.span = s.faults.map Located.span

/-- From states alike with the given names both walks come to the same value and to states alike,
with a value and names as in `post`. -/
def Agree (names : Names) (w w' : Walk β) (post : β → Names → Prop) : Prop :=
  ∀ s s', s.names = names → s.Alike s' →
    (w'.run s').1 = (w.run s).1 ∧ (w.run s).2.Alike (w'.run s').2 ∧
      post (w.run s).1 (w.run s).2.names

section Steps
variable {names names' : Names} {w w' : Walk β} {post : β → Names → Prop}

theorem Agree.bind (h : Agree names w w' post) {next next' : β → Walk γ}
    {post' : γ → Names → Prop}
    (hn : ∀ value names', post value names' → Agree names' (next value) (next' value) post') :
    Agree names (w >>= next) (w' >>= next') post' := by
  intro s s' hnames halike
  obtain ⟨hvalue, hafter, hpost⟩ := h s s' hnames halike
  have hrun : (w' >>= next').run s' = (next' (w'.run s').1).run (w'.run s').2 := rfl
  rw [hrun, hvalue]
  exact hn _ _ hpost _ _ rfl hafter

theorem Agree.imp (h : Agree names w w' post) {post' : β → Names → Prop}
    (hp : ∀ value names', post value names' → post' value names') : Agree names w w' post' :=
  fun s s' hnames halike =>
    let h := h s s' hnames halike
    ⟨h.1, h.2.1, hp _ _ h.2.2⟩

theorem agree_pure {value : β} (h : post value names) : Agree names (pure value) (pure value) post :=
  fun _ _ hnames halike => ⟨rfl, halike, hnames ▸ h⟩

/-- What comes next may depend on the names. -/
theorem Agree.get {next : State → Walk β}
    (h : ∀ s s', s.names = names → s'.names = names → Agree names (next s) (next s') post) :
    Agree names (MonadState.get >>= next) (MonadState.get >>= next) post :=
  fun s s' hnames halike => h s s' hnames (halike.names.trans hnames) s s' hnames halike

/-- The words of a fault do not matter. -/
theorem agree_report (fault fault' : Fault) (span : Span) :
    Agree names (report fault span) (report fault' span) fun _ names' => names' = names := by
  intro s s' hnames halike
  refine ⟨rfl, ⟨halike.names, halike.types, ?_⟩, hnames⟩
  show (s'.faults ++ [(⟨fault', some span⟩ : Located Fault)]).map Located.span =
    (s.faults ++ [(⟨fault, some span⟩ : Located Fault)]).map Located.span
  rw [List.map_append, List.map_append, halike.places]
  rfl

theorem agree_require (condition : Bool) (fault fault' : Fault) (span : Span) :
    Agree names (require condition fault span) (require condition fault' span)
      fun _ names' => names' = names := by
  rw [require, require]
  split
  · exact agree_pure rfl
  · exact agree_report fault fault' span

theorem agree_note (span : Span) (type : ValueType) :
    Agree names (note span type) (note span type) fun _ names' => names' = names :=
  fun _ _ hnames halike =>
    ⟨rfl, ⟨halike.names, congrArg (List.cons (span, type)) halike.types, halike.places⟩, hnames⟩

/-- The end of a walk over an expression of a known type. -/
theorem agree_typed (type : ValueType) (span : Span) {post : Names → Prop} (h : post names) :
    Agree names (do note span type; return type) (do note span type; return type)
      fun _ names' => post names' :=
  (agree_note span type).bind fun _ _ hn => agree_pure (hn ▸ h)

theorem agree_find (scope : Scope) (ident : Ident) :
    Agree names (find scope ident) (find scope ident) fun found names' =>
      names' = names ∧ (found = none ∨ found = names.find? scope ident.name) := by
  have missing : ∀ fault, Agree names (do report fault ident.span; return none)
      (do report fault ident.span; return none) fun (found : Option Declaration) names' =>
        names' = names ∧ found = none := fun fault =>
    (agree_report fault fault ident.span).bind fun _ _ hn => agree_pure ⟨hn, rfl⟩
  rw [find]
  split
  · exact (missing .discardRead).imp fun _ _ h => ⟨h.1, .inl h.2⟩
  · -- Both walks look at the same names: either both find one, or both report that there is none.
    refine Agree.get fun s s' hs hs' => ?_
    rw [hs, hs']
    cases names.find? scope ident.name with
    | some d => exact agree_pure ⟨rfl, .inr rfl⟩
    | none => exact (missing (.undefinedName ident.name)).imp fun _ _ h => ⟨h.1, .inl h.2⟩

theorem agree_findObject (catalog : Catalog) (scope : Scope) (sight : Sight) (part : Part)
    (object : Ident) :
    Agree sight.names (findObject catalog scope part object)
      (findObject catalog scope part object) fun found names' => names' = sight.names ∧
        ∀ c, found = some c → sight.checked catalog scope object.name = some c := by
  rw [findObject]
  refine (agree_find scope object).bind fun found _ hfound => ?_
  obtain ⟨rfl, hfound⟩ := hfound
  cases found with
  | none => exact agree_pure ⟨rfl, fun _ hc => by cases hc⟩
  | some d =>
    dsimp only
    cases hc : d.type.className.bind catalog.resolve? with
    | some c =>
      refine agree_pure ⟨rfl, fun _ hsame => ?_⟩
      rw [Sight.checked, ← hfound.resolve_left (Option.some_ne_none d), Option.bind_some, hc]
      exact hsame
    | none =>
      exact (agree_report _ _ object.span).bind fun _ _ hn =>
        agree_pure ⟨hn, fun _ hc => by cases hc⟩

/-- Unless it is `_`, a defined name is settled. -/
theorem agree_define (scope : Scope) (name : Ident) (type : ValueType) :
    Agree names (define scope name type) (define scope name type) fun _ names' =>
      name.isDiscard = false → names' = names.settle scope name type := by
  rw [define]
  split
  · next hd =>
    refine (agree_report _ _ name.span).imp fun _ _ _ hnot => ?_
    rw [hd] at hnot
    cases hnot
  · refine Agree.get fun s s' hs hs' => ?_
    rw [hs, hs', Names.settle]
    split
    · exact (agree_report _ _ name.span).imp fun _ _ hn _ => hn
    · intro t t' hnames halike
      have hput : ∀ u : State, u.names = names →
          (u.names.put scope name.name ⟨.declared name.span, type⟩) =
            names.put scope name.name ⟨.declared name.span, type⟩ := fun u hu => by rw [hu]
      refine ⟨rfl, ⟨?_, halike.types, halike.places⟩, fun _ => hput t hnames⟩
      exact (hput t' (halike.names.trans hnames)).trans (hput t hnames).symm

theorem agree_assign (assigned : List String) (socket : String) (fault fault' : Fault)
    (span : Span) :
    Agree names (assign assigned socket fault span) (assign assigned socket fault' span)
      fun _ names' => names' = names :=
  (agree_require _ fault fault' span).bind fun _ _ hn => agree_pure hn

end Steps

section Expressions
variable {catalog : Catalog} {scope : Scope}

/-- An expression and its canonical form are checked alike. -/
private abbrev ChecksAlike (catalog : Catalog) (scope : Scope) (e : Expr) : Prop :=
  ∀ sight : Sight, Agree sight.names (checkExpr catalog scope e)
    (checkExpr catalog scope (e.canonical .both catalog scope sight))
    fun _ names' => names' = (sight.behind catalog scope e).names

/-- Arguments and their canonical form are checked alike, for a class or without one. -/
private structure AlikeArgs (catalog : Catalog) (scope : Scope) (args : List (Arg Expr)) :
    Prop where
  sockets : ∀ (c : UnitClass) (position : Nat) (assigned : List String) (sight : Sight), c.Regular →
    Agree sight.names (checkArgs catalog scope c position assigned args)
      (checkArgs catalog scope c position assigned
        (canonicalArgs .both catalog scope (some c) sight args))
      fun _ names' => names' = (sight.declareAll scope (argsDeclare catalog args)).names
  values : ∀ sight : Sight, Agree sight.names (checkValues catalog scope args)
    (checkValues catalog scope (canonicalArgs .both catalog scope none sight args))
    fun _ names' => names' = (sight.declareAll scope (argsDeclare catalog args)).names

private theorem alikeArgs_nil : AlikeArgs catalog scope [] := by
  refine ⟨fun c position assigned sight _ => ?_, fun sight => ?_⟩
  · rw [canonicalArgs, checkArgs]
    exact agree_pure rfl
  · rw [canonicalArgs, checkValues]
    exact agree_pure rfl

private theorem alikeArgs_cons {label : Option Label} {value : Expr} {rest : List (Arg Expr)}
    (hv : ChecksAlike catalog scope value) (hr : AlikeArgs catalog scope rest) :
    AlikeArgs catalog scope (⟨label, value⟩ :: rest) := by
  refine ⟨fun c position assigned sight hc => ?_, fun sight => ?_⟩
  · rw [canonicalArgs, argsDeclare, Sight.declareAll_append]
    have hrest := fun position assigned =>
      hr.sockets c position assigned (sight.behind catalog scope value) hc
    cases label with
    | none =>
      rw [Option.map_none, checkArgs, checkArgs, span_canonical]
      refine (hv sight).bind fun type names₁ h₁ => ?_
      refine (agree_require _ _ _ value.span).bind fun _ names₂ h₂ => ?_
      rw [h₂, h₁]
      cases c.positionalSocket? position with
      | none => exact hrest (position + 1) assigned
      | some socket =>
        refine (agree_assign assigned socket _ _ value.span).bind fun assigned' _ h₃ => ?_
        rw [h₃]
        exact hrest (position + 1) assigned'
    | some label =>
      rw [Option.map_some, checkArgs, checkArgs, span_canonical, canonicalSocket?_label hc]
      refine (hv sight).bind fun type names₁ h₁ => ?_
      refine (agree_require _ _ _ value.span).bind fun _ names₂ h₂ => ?_
      rw [h₂, h₁]
      cases c.canonicalSocket? label.socket.name with
      | none =>
        refine (agree_report _ _ label.socket.span).bind fun _ _ h₃ => ?_
        rw [h₃]
        exact hrest position assigned
      | some socket =>
        refine (agree_assign assigned socket _ _ label.span).bind fun assigned' _ h₃ => ?_
        rw [h₃]
        exact hrest position assigned'
  · rw [canonicalArgs, checkValues, checkValues, argsDeclare, Sight.declareAll_append]
    refine (hv sight).bind fun _ names' hn => ?_
    rw [hn]
    exact hr.values (sight.behind catalog scope value)

private theorem countP_canonicalArgs (c : Option UnitClass) (sight : Sight)
    (args : List (Arg Expr)) :
    (canonicalArgs .both catalog scope c sight args).countP (·.label.isNone) =
      args.countP (·.label.isNone) := by
  induction args generalizing sight with
  | nil => rw [canonicalArgs]
  | cons arg rest ih =>
    obtain ⟨label, value⟩ := arg
    rw [canonicalArgs, List.countP_cons, List.countP_cons, ih, Option.isNone_map]

private theorem agree_construction (hk : catalog.Regular) {args : List (Arg Expr)}
    (h : AlikeArgs catalog scope args) (className : Ident) (name : Option Ident) (span : Span)
    (sight : Sight) :
    Agree sight.names (checkConstruction catalog scope ⟨className, name, args, span⟩)
      (checkConstruction catalog scope
        (Construction.canonical .both catalog scope sight ⟨className, name, args, span⟩))
      fun _ names' => names' = (sight.declareAll scope
        (Construction.declares catalog ⟨className, name, args, span⟩)).names := by
  rw [Construction.canonical, Construction.declares, Sight.declareAll_append, checkConstruction,
    checkConstruction, resolve?_canonicalClass hk, countP_canonicalArgs]
  cases hc : catalog.resolve? className.name with
  | none =>
    refine (agree_report _ _ className.span).bind fun _ _ h₁ => ?_
    rw [h₁]
    exact (h.values sight).bind fun _ _ h₂ => agree_pure h₂
  | some c =>
    refine (agree_require _ _ _ span).bind fun _ _ h₁ => ?_
    rw [h₁]
    refine (h.sockets c 0 [] sight (hk _ _ hc).1).bind fun _ _ h₂ => ?_
    rw [h₂]
    generalize sight.declareAll scope (argsDeclare catalog args) = sight'
    refine Agree.bind ?_ fun _ _ h₃ => agree_pure h₃
    cases name with
    | none => exact agree_pure rfl
    | some name =>
      rw [defineObject]
      have hdeclare : sight'.declareAll scope (declared (some c) (some name)) =
        sight'.declare scope (name, c) := rfl
      rw [hdeclare, Sight.declare]
      split
      · exact agree_pure rfl
      · next hd =>
        exact (agree_define scope name _).imp fun _ _ hn => hn (Bool.eq_false_iff.mpr hd)

theorem regular_checked (hk : catalog.Regular) {sight : Sight} {name : String} {c : UnitClass}
    (h : sight.checked catalog scope name = some c) : c.Regular := by
  obtain ⟨d, _, h⟩ := Option.bind_eq_some_iff.mp h
  obtain ⟨className, _, h⟩ := Option.bind_eq_some_iff.mp h
  exact (hk className c h).1

theorem hasSocket_canonicalPart (hk : catalog.Regular) {sight : Sight} {object : Ident}
    {c : UnitClass} (h : sight.checked catalog scope object.name = some c) (socket : Ident) :
    c.hasSocket (socket.canonicalPart .both catalog scope sight UnitClass.canonicalSocket?
      object).name = c.hasSocket socket.name := by
  rcases socket.canonicalPart_name catalog scope sight UnitClass.canonicalSocket? object with
    hsame | ⟨hproper, _⟩
  · rw [hsame]
  · rw [(regular_checked hk h).hasSocket_canonicalSocket? (hproper c h),
      UnitClass.canonicalSocket?_eq_some_iff.mp ⟨_, hproper c h⟩]

theorem hasOutput_canonicalPart (hk : catalog.Regular) {sight : Sight} {object : Ident}
    {c : UnitClass} (h : sight.checked catalog scope object.name = some c) (output : Ident) :
    c.hasOutput (output.canonicalPart .both catalog scope sight UnitClass.canonicalOutput?
      object).name = c.hasOutput output.name := by
  rcases output.canonicalPart_name catalog scope sight UnitClass.canonicalOutput? object with
    hsame | ⟨hproper, _⟩
  · rw [hsame]
  · have hout := (regular_checked hk h).canonicalOutput?_canonicalOutput? (hproper c h)
    rw [UnitClass.hasOutput_iff.mpr ⟨_, hout⟩, UnitClass.hasOutput_iff.mpr ⟨_, hproper c h⟩]

theorem agree_checkExpr (hk : catalog.Regular) (e : Expr) : ChecksAlike catalog scope e := by
  induction e using Expr.induction (AlikeArgs catalog scope) with
  | error span =>
    intro sight
    rw [Expr.canonical, checkExpr]
    exact agree_typed _ span rfl
  | number value unit span =>
    intro sight
    rw [Expr.canonical, checkExpr]
    exact agree_typed _ span rfl
  | unary sign operand span ih =>
    intro sight
    rw [Expr.canonical, checkExpr, checkExpr, span_canonical]
    refine (ih sight).bind fun _ _ h₁ => ?_
    refine (agree_require _ _ _ operand.span).bind fun _ _ h₂ => ?_
    exact agree_typed _ span (h₂.trans h₁)
  | binary op left right span ihl ihr =>
    intro sight
    rw [Expr.canonical, checkExpr, checkExpr, span_canonical, span_canonical, Sight.behind_binary]
    refine (ihl sight).bind fun _ _ h₁ => ?_
    refine (agree_require _ _ _ left.span).bind fun _ _ h₂ => ?_
    rw [h₂, h₁]
    refine (ihr (sight.behind catalog scope left)).bind fun _ _ h₃ => ?_
    refine (agree_require _ _ _ right.span).bind fun _ _ h₄ => ?_
    exact agree_typed _ span (h₄.trans h₃)
  | mapping polarity source low high span ihs ihl ihh =>
    intro sight
    rw [Expr.canonical, checkExpr, checkExpr, span_canonical, span_canonical, span_canonical,
      Sight.behind_mapping]
    refine (ihs sight).bind fun _ _ h₁ => ?_
    refine (agree_require _ _ _ source.span).bind fun _ _ h₂ => ?_
    rw [h₂, h₁]
    refine (ihl (sight.behind catalog scope source)).bind fun _ _ h₃ => ?_
    refine (agree_require _ _ _ low.span).bind fun _ _ h₄ => ?_
    rw [h₄, h₃]
    refine (ihh ((sight.behind catalog scope source).behind catalog scope low)).bind
      fun _ _ h₅ => ?_
    refine (agree_require _ _ _ high.span).bind fun _ _ h₆ => ?_
    exact agree_typed _ span (h₆.trans h₅)
  | construction className name values span ih =>
    intro sight
    rw [Expr.canonical, checkExpr, checkExpr, Sight.behind, Expr.declares]
    exact (agree_construction hk ih className name span sight).bind fun _ _ h₁ =>
      agree_typed _ span h₁
  | socket object socket span =>
    intro sight
    rw [Expr.canonical, checkExpr, checkExpr]
    refine (agree_findObject catalog scope sight .socket object).bind fun found _ hfound => ?_
    obtain ⟨rfl, hfound⟩ := hfound
    cases found with
    | none => exact agree_typed _ span rfl
    | some c =>
      dsimp only
      rw [hasSocket_canonicalPart hk (hfound c rfl)]
      exact (agree_require _ _ _ socket.span).bind fun _ _ h₁ => agree_typed _ span h₁
  | output object output span =>
    intro sight
    rw [Expr.canonical, checkExpr, checkExpr]
    refine (agree_findObject catalog scope sight .output object).bind fun found _ hfound => ?_
    obtain ⟨rfl, hfound⟩ := hfound
    cases found with
    | none => exact agree_typed _ span rfl
    | some c =>
      dsimp only
      rw [hasOutput_canonicalPart hk (hfound c rfl)]
      exact (agree_require _ _ _ output.span).bind fun _ _ h₁ => agree_typed _ span h₁
  | name ident =>
    intro sight
    rw [Expr.canonical, checkExpr]
    refine (agree_find scope ident).bind fun found _ h₁ => ?_
    cases found with
    | none => exact agree_typed _ ident.span h₁.1
    | some d => exact agree_typed d.type ident.span h₁.1
  | nil => exact alikeArgs_nil
  | cons label value rest ihv ihr => exact alikeArgs_cons ihv ihr

private theorem alikeArgs (hk : catalog.Regular) (args : List (Arg Expr)) :
    AlikeArgs catalog scope args := by
  induction args with
  | nil => exact alikeArgs_nil
  | cons arg rest ih => exact alikeArgs_cons (agree_checkExpr hk arg.value) ih

theorem agree_checkSteps (hk : catalog.Regular) (steps : List Expr) (sight : Sight) :
    Agree sight.names (checkSteps catalog scope steps)
      (checkSteps catalog scope (canonicalLinks .both catalog scope sight steps))
      fun _ names' => names' = (steps.foldl (Sight.behind · catalog scope) sight).names := by
  induction steps generalizing sight with
  | nil => exact agree_pure rfl
  | cons step rest ih =>
    rw [canonicalLinks, checkSteps, checkSteps, span_canonical]
    refine (agree_checkExpr hk step sight).bind fun _ _ h₁ => ?_
    refine (agree_require _ _ _ step.span).bind fun _ _ h₂ => ?_
    refine (agree_require _ _ _ step.span).bind fun _ _ h₃ => ?_
    rw [h₃, h₂, h₁]
    exact ih (sight.behind catalog scope step)

theorem agree_checkStatement (hk : catalog.Regular) (statement : Statement) (sight : Sight) :
    Agree sight.names (checkStatement catalog scope statement)
      (checkStatement catalog scope (statement.canonical .both catalog scope sight))
      fun _ _ => True := by
  cases statement with
  | error span => exact agree_pure trivial
  | definition name value span =>
    exact (agree_checkExpr hk value sight).bind fun type _ _ =>
      (agree_define scope name type).imp fun _ _ _ => trivial
  | construction c =>
    obtain ⟨className, name, args, span⟩ := c
    exact (agree_construction hk (alikeArgs hk args) className name span sight).bind fun _ _ _ =>
      agree_pure trivial
  | chain source steps target span =>
    rw [Statement.canonical, checkStatement, checkStatement, span_canonical, span_canonical]
    refine (agree_checkExpr hk source sight).bind fun _ _ h₁ => ?_
    refine (agree_require _ _ _ source.span).bind fun _ _ h₂ => ?_
    rw [h₂, h₁]
    refine (agree_checkSteps hk steps _).bind fun _ _ h₃ => ?_
    rw [h₃]
    refine (agree_checkExpr hk target _).bind fun _ _ _ => ?_
    exact (agree_require _ _ _ target.span).imp fun _ _ _ => trivial

end Expressions

variable {α : Type} [Arithmetic α] {catalog : Catalog}

/-- Lines and their canonical form are checked alike, whatever building makes of the lines. -/
theorem alike_checkLines (hk : catalog.Regular) (lines : List Line) (s : Building.State α)
    {found found' : State} (h : found.Alike found') :
    ((checkLines catalog lines).run found).2.Alike
      ((checkLines catalog (canonicalLines .both catalog found s lines)).run found').2 := by
  induction lines generalizing s found found' with
  | nil => exact h
  | cons line rest ih =>
    rw [canonicalLines, checkLines, checkLines]
    let sight : Sight := ⟨found.names, s.class? line.scope⟩
    have hline : Agree sight.names (checkStatement catalog line.scope line.statement)
        (checkStatement catalog line.scope
          (line.statement.canonical .both catalog line.scope sight)) fun _ _ => True :=
      agree_checkStatement hk line.statement sight
    exact ih _ (hline found found' rfl h).2.1

/-- A program and its canonical form have the same names and types, and faults at the same places in
the same order. -/
theorem alike_check (hk : catalog.Regular) (program : Program) :
    (check catalog program).Alike (check catalog (program.canonical α .both catalog)) :=
  alike_checkLines hk program.lines _ ⟨rfl, rfl, rfl⟩

end Patchbay.Checking
