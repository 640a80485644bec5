import Patchbay.Proofs.Building.Frame
import Patchbay.Proofs.Building.Invariant
import Patchbay.Proofs.Program.Canonical

/-! Building a program and its canonical form: what is built is the same, up to the last fault. -/
namespace Patchbay.Building
variable {α β γ : Type}

/-- From a state with the given classes under names both pieces of work do the same, and a value that
they end with and the classes then are as in `post`. -/
def Same (scope : Scope) (classes : String → Option UnitClass) (w w' : Work α β)
    (post : β → (String → Option UnitClass) → Prop) : Prop :=
  ∀ s : State α, s.class? scope = classes →
    w'.run s = w.run s ∧ Leads w s (fun value s' => post value (s'.class? scope)) fun _ _ => True

section Steps
variable {scope : Scope} {classes : String → Option UnitClass} {w w' : Work α β}
  {post : β → (String → Option UnitClass) → Prop}

theorem Same.bind (h : Same scope classes w w' post) {next next' : β → Work α γ}
    {post' : γ → (String → Option UnitClass) → Prop}
    (hn : ∀ value classes', post value classes' →
      Same scope classes' (next value) (next' value) post') :
    Same scope classes (w >>= next) (w' >>= next') post' := by
  intro s hs
  obtain ⟨hrun, hleads⟩ := h s hs
  constructor
  · rw [run_bind, run_bind, hrun]
    rw [Leads] at hleads
    generalize w.run s = result at hleads ⊢
    rcases result with ⟨fault | value, t⟩
    · rfl
    · exact (hn value _ hleads t rfl).1
  · refine (leads_bind w next).mpr (Leads.imp hleads ?_ fun _ _ _ => trivial)
    exact fun value t hv => (hn value _ hv t rfl).2

theorem Same.imp (h : Same scope classes w w' post)
    {post' : β → (String → Option UnitClass) → Prop}
    (hp : ∀ value classes', post value classes' → post' value classes') :
    Same scope classes w w' post' :=
  fun s hs => ⟨(h s hs).1, Leads.imp (h s hs).2 (fun _ _ hv => hp _ _ hv) fun _ _ _ => trivial⟩

theorem same_pure {value : β} (h : post value classes) :
    Same scope classes (pure value : Work α β) (pure value) post :=
  fun _ hs => ⟨rfl, (leads_pure value).mpr (hs ▸ h)⟩

theorem same_fail (fault : Fault) (span : Option Span) :
    Same scope classes (fail fault span : Work α β) (fail fault span) post :=
  fun _ _ => ⟨rfl, (leads_fail fault span).mpr trivial⟩

theorem same_classUnder (catalog : Catalog) (name : String) (span : Option Span) :
    Same scope classes (classUnder catalog name span : Work α UnitClass)
      (classUnder catalog name span) fun c classes' =>
        classes' = classes ∧ catalog.resolve? name = some c := by
  rw [classUnder]
  cases catalog.resolve? name with
  | some c => exact same_pure ⟨rfl, rfl⟩
  | none => exact same_fail _ _

theorem same_addObject (cls : UnitClass) (origin : Origin) (span : Option Span) :
    Same scope classes (addObject cls scope origin span : Work α Ref)
      (addObject cls scope origin span) fun ref classes' =>
        classes' = classes ∧ ref.cls = cls :=
  fun _ hs => ⟨rfl, (leads_addObject cls scope origin span).mpr ⟨hs, rfl⟩⟩

theorem class?_bind (s : State α) (scope : Scope) (name : String) (value : Value α) :
    (s.bind scope name value).class? scope = fun other =>
      if other = name then classOf value else s.class? scope other := by
  funext other
  have hfind : (s.bind scope name value).find? scope other =
      if other = name then some value else s.find? scope other := by
    cases scope <;> simp only [State.find?, State.bind, Table.get?_put]
    split <;> rfl
  rw [State.class?, hfind]
  split <;> rfl

/-- Unless it is `_`, a name stands for what it was last bound to. -/
theorem same_define (name : Ident) (value : Value α) :
    Same scope classes (define scope name value) (define scope name value) fun _ classes' =>
      classes' = if name.isDiscard then classes
        else fun other => if other = name.name then classOf value else classes other := by
  have parameter : Same scope classes (addParameter scope name value)
      (addParameter scope name value) fun _ classes' => classes' = classes := by
    rw [addParameter.eq_def]
    split
    · split
      · exact same_pure rfl
      · cases scope with
        | voice => exact same_fail _ _
        | global => exact fun s hs => ⟨rfl, (leads_modify _).mpr hs⟩
    · exact same_pure rfl
  rw [define]
  refine parameter.bind fun _ _ hn => ?_
  rw [hn]
  split
  · exact same_pure rfl
  · refine fun s hs => ⟨rfl, (leads_modify _).mpr ?_⟩
    rw [class?_bind, hs]

/-- The object under a name is of the class that is known. -/
theorem same_findObject (part : Part) (object : Ident) :
    Same scope classes (findObject scope part object : Work α Ref) (findObject scope part object)
      fun ref classes' => classes' = classes ∧ classes object.name = some ref.cls := by
  intro s hs
  refine ⟨rfl, (leads_findObject scope part object).mpr ?_⟩
  have hclass : classes object.name = (s.find? scope object.name).bind classOf := by rw [← hs]; rfl
  rw [hclass]
  cases s.find? scope object.name with
  | none => trivial
  | some value =>
    rcases value with _ | ⟨_ | _ | _ | _, _ | _⟩ <;> trivial

section Nameless
variable [Arithmetic α]

/-- Work that binds no names. -/
def Reach.nameless (scope : Scope) : Reach := ⟨scope, fun _ => False, 0⟩

/-- Nothing keeps nameless work from objects and their sockets. -/
abbrev nameless (α : Type) [Arithmetic α] (catalog : Catalog) (scope : Scope) :
    Discipline α catalog scope := permitting catalog (Reach.nameless scope)

theorem same_of_acts (catalog : Catalog) {names : List String} {size : Nat}
    {post' : β → State α → Prop}
    (h : ∀ s : State α, (nameless α catalog scope).Acts names size w s post') :
    Same scope classes w w fun _ classes' => classes' = classes := by
  intro s hs
  obtain ⟨result, changes, hrun, hpermitted, _⟩ := h s (Nat.zero_le _)
  refine ⟨rfl, ?_⟩
  -- No name is within reach, so that each keeps its value through all the changes.
  have hclasses : (s.changeAll changes).class? scope = classes := by
    funext name
    rw [State.class?, find?_changeAll hpermitted id s scope, ← hs]
    rfl
  rw [Leads, hrun s (.refl s)]
  cases result with
  | error fault => trivial
  | ok value => exact hclasses

theorem same_plug (catalog : Catalog) (target : Ref) (socket : String) (value : Value α) :
    Same scope classes (plug target socket value) (plug target socket value)
      fun _ classes' => classes' = classes :=
  same_of_acts catalog fun _ => Discipline.acts_plug (Nat.zero_le _) socket fun _ _ => trivial

theorem same_connect (catalog : Catalog) (source target : Value α) (span : Span) :
    Same scope classes (connect source target span) (connect source target span)
      fun _ classes' => classes' = classes :=
  same_of_acts catalog fun _ => Discipline.acts_connect (routes_permitting catalog rfl)
    (fun _ _ => trivial) (fun _ _ => trivial) trivial

theorem same_negate (catalog : Catalog) (value : Value α) (span : Span) :
    Same scope classes (negate catalog scope value span) (negate catalog scope value span)
      fun _ classes' => classes' = classes :=
  same_of_acts catalog fun _ => Discipline.acts_negate (fun _ _ => trivial) trivial

theorem same_scale (catalog : Catalog) (left right : Value α) (span : Span) :
    Same scope classes (scale catalog scope left right span) (scale catalog scope left right span)
      fun _ classes' => classes' = classes :=
  same_of_acts catalog fun _ =>
    Discipline.acts_scale (fun _ _ => trivial) (fun _ _ => trivial) trivial

end Nameless

end Steps

section Expressions
variable [Arithmetic α] {catalog : Catalog} {scope : Scope}

/-- An expression and its canonical form are built alike. -/
private abbrev BuildsSame (α : Type) [Arithmetic α] (catalog : Catalog) (scope : Scope) (e : Expr) :
    Prop :=
  ∀ sight : Sight, sight.Regular →
    Same scope sight.classes (buildExpr catalog scope e : Work α (Value α))
      (buildExpr catalog scope (e.canonical .both catalog scope sight))
      fun _ classes' => classes' = (sight.behind catalog scope e).classes

private abbrev ArgsSame (α : Type) [Arithmetic α] (catalog : Catalog) (scope : Scope)
    (args : List (Arg Expr)) : Prop :=
  ∀ (object : Ref) (position : Nat) (sight : Sight), object.cls.Regular → sight.Regular →
    Same scope sight.classes (buildArgs catalog scope object position args : Work α Unit)
      (buildArgs catalog scope object position
        (canonicalArgs .both catalog scope (some object.cls) sight args))
      fun _ classes' => classes' = (sight.declareAll scope (argsDeclare catalog args)).classes

private theorem argsSame_nil : ArgsSame α catalog scope [] := by
  intro object position sight _ _
  rw [canonicalArgs, buildArgs]
  exact same_pure rfl

private theorem argsSame_cons (hk : catalog.Regular) {label : Option Label} {value : Expr}
    {rest : List (Arg Expr)} (hv : BuildsSame α catalog scope value) (hr : ArgsSame α catalog scope rest) :
    ArgsSame α catalog scope (⟨label, value⟩ :: rest) := by
  intro object position sight hc hs
  have plugged : ∀ (socket : String) (position : Nat), Same scope sight.classes
      (do
        let built ← buildExpr catalog scope value
        plug object socket built
        buildArgs catalog scope object position rest : Work α Unit)
      (do
        let built ← buildExpr catalog scope (value.canonical .both catalog scope sight)
        plug object socket built
        buildArgs catalog scope object position (canonicalArgs .both catalog scope
          (some object.cls) (sight.behind catalog scope value) rest))
      fun _ classes' =>
        classes' = (sight.declareAll scope (argsDeclare catalog (⟨label, value⟩ :: rest))).classes := by
    intro socket position
    refine (hv sight hs).bind fun built _ h₁ => ?_
    refine (same_plug catalog object socket built).bind fun _ _ h₂ => ?_
    rw [h₂, h₁, argsDeclare, Sight.declareAll_append]
    exact hr object position (sight.behind catalog scope value) hc (hs.behind hk scope value)
  rw [canonicalArgs]
  cases label with
  | none =>
    rw [Option.map_none, buildArgs, buildArgs, span_canonical]
    cases object.cls.positionalSocket? position with
    | none => exact same_fail _ _
    | some socket => exact plugged socket (position + 1)
  | some label =>
    rw [Option.map_some, buildArgs, buildArgs, span_canonical, canonicalSocket?_label hc]
    cases object.cls.canonicalSocket? label.socket.name with
    | none => exact same_fail _ _
    | some socket => exact plugged socket position

omit [Arithmetic α] in
theorem classUnder_canonicalClass (hk : catalog.Regular) (className : Ident)
    (span : Option Span) :
    (classUnder catalog (className.canonicalClass catalog).name span : Work α UnitClass) =
      classUnder catalog className.name span := by
  rw [classUnder, classUnder, resolve?_canonicalClass hk]
  cases hc : catalog.resolve? className.name with
  | some c => rfl
  | none =>
    have hsame : className.canonicalClass catalog = className := by
      rw [Ident.canonicalClass, hc]
      rfl
    rw [hsame]

private theorem same_construction (hk : catalog.Regular) {args : List (Arg Expr)}
    (h : ArgsSame α catalog scope args) (className : Ident) (name : Option Ident) (span : Span)
    {sight : Sight} (hs : sight.Regular) :
    Same scope sight.classes
      (buildConstruction catalog scope ⟨className, name, args, span⟩ : Work α (Value α))
      (buildConstruction catalog scope
        (Construction.canonical .both catalog scope sight ⟨className, name, args, span⟩))
      fun _ classes' => classes' = (sight.declareAll scope
        (Construction.declares catalog ⟨className, name, args, span⟩)).classes := by
  rw [Construction.canonical, Construction.declares, Sight.declareAll_append, buildConstruction,
    buildConstruction, classUnder_canonicalClass hk]
  refine (same_classUnder catalog className.name _).bind fun c _ hc => ?_
  obtain ⟨rfl, hc⟩ := hc
  refine (same_addObject c .written (some span)).bind fun object _ hobject => ?_
  obtain ⟨rfl, rfl⟩ := hobject
  rw [hc]
  refine (h object 0 sight (hk _ _ hc).1 hs).bind fun _ _ h₁ => ?_
  rw [h₁]
  generalize sight.declareAll scope (argsDeclare catalog args) = sight'
  cases name with
  | none => exact same_pure rfl
  | some name =>
    have hdeclare : sight'.declareAll scope (declared (some object.cls) (some name)) =
      sight'.declare scope (name, object.cls) := rfl
    rw [hdeclare, Sight.classes_declare]
    exact (same_define name [.object object (some span)]).bind fun _ _ h₂ => same_pure h₂

theorem same_buildExpr (hk : catalog.Regular) (e : Expr) : BuildsSame α catalog scope e := by
  induction e using Expr.induction (ArgsSame α catalog scope) with
  | error span =>
    intro sight hs
    rw [Expr.canonical, buildExpr]
    exact same_fail _ _
  | number value unit span =>
    intro sight hs
    rw [Expr.canonical, buildExpr]
    exact same_of_acts catalog fun _ =>
      Discipline.acts_literal fun _ hname => absurd hname List.not_mem_nil
  | unary sign operand span ih =>
    intro sight hs
    rw [Expr.canonical, buildExpr, buildExpr]
    refine (ih sight hs).bind fun value _ h₁ => ?_
    cases sign with
    | plus => exact same_pure h₁
    | minus => exact (same_negate catalog value span).imp fun _ _ h₂ => h₂.trans h₁
  | binary op left right span ihl ihr =>
    intro sight hs
    rw [Expr.canonical, buildExpr, buildExpr, Sight.behind_binary]
    refine (ihl sight hs).bind fun l _ h₁ => ?_
    rw [h₁]
    refine (ihr _ (hs.behind hk scope left)).bind fun r _ h₂ => ?_
    cases op with
    | add => exact same_pure h₂
    | subtract => exact (same_negate catalog r span).bind fun _ _ h₃ => same_pure (h₃.trans h₂)
    | multiply => exact (same_scale catalog l r span).imp fun _ _ h₃ => h₃.trans h₂
  | mapping polarity source low high span ihs ihl ihh =>
    intro sight hs
    rw [Expr.canonical, buildExpr, buildExpr, Sight.behind_mapping]
    refine (ihs sight hs).bind fun s _ h₁ => ?_
    rw [h₁]
    have hsource := hs.behind hk scope source
    refine (ihl _ hsource).bind fun l _ h₂ => ?_
    rw [h₂]
    refine (ihh _ (hsource.behind hk scope low)).bind fun h _ h₃ => ?_
    rw [h₃]
    exact same_of_acts catalog fun _ => Discipline.acts_mapped (fun _ _ => trivial)
      (fun _ _ => trivial) (fun _ _ => trivial) trivial
  | construction className name values span ih =>
    intro sight hs
    rw [Expr.canonical, buildExpr, buildExpr, Sight.behind, Expr.declares]
    exact same_construction hk ih className name span hs
  | socket object socket span =>
    intro sight hs
    rw [Expr.canonical, buildExpr, buildExpr]
    refine (same_findObject .socket object).bind fun ref _ href => ?_
    obtain ⟨rfl, hclass⟩ := href
    rcases socket.canonicalPart_name catalog scope sight UnitClass.canonicalSocket? object with
      hsame | ⟨_, hproper⟩
    · rw [hsame]
      cases ref.cls.socketIndex? socket.name with
      | some index => exact same_pure rfl
      | none => exact same_fail _ _
    · have hsocket := hproper _ hclass
      obtain ⟨index, hindex⟩ :=
        UnitClass.hasSocket_iff.mp (UnitClass.canonicalSocket?_eq_some_iff.mp ⟨_, hsocket⟩)
      rw [(hs _ _ hclass).socketIndex?_canonicalSocket? hsocket, hindex]
      exact same_pure rfl
  | output object output span =>
    intro sight hs
    rw [Expr.canonical, buildExpr, buildExpr]
    refine (same_findObject .output object).bind fun ref _ href => ?_
    obtain ⟨rfl, hclass⟩ := href
    rcases output.canonicalPart_name catalog scope sight UnitClass.canonicalOutput? object with
      hsame | ⟨_, hproper⟩
    · rw [hsame]
      cases ref.cls.canonicalOutput? output.name with
      | some name => exact same_pure rfl
      | none => exact same_fail _ _
    · have houtput := hproper _ hclass
      rw [(hs _ _ hclass).canonicalOutput?_canonicalOutput? houtput, houtput]
      exact same_pure rfl
  | name ident =>
    intro sight hs
    rw [Expr.canonical, buildExpr]
    exact same_of_acts catalog fun _ => Discipline.acts_find trivial
  | nil => exact argsSame_nil
  | cons label value rest ihv ihr => exact argsSame_cons hk ihv ihr

private theorem argsSame (hk : catalog.Regular) (args : List (Arg Expr)) :
    ArgsSame α catalog scope args := by
  induction args with
  | nil => exact argsSame_nil
  | cons arg rest ih => exact argsSame_cons hk (same_buildExpr hk arg.value) ih

theorem canonicalLinks_append (authority : Authority) (catalog : Catalog) (scope : Scope)
    (sight : Sight) (steps : List Expr) (target : Expr) :
    canonicalLinks authority catalog scope sight (steps ++ [target]) =
      canonicalLinks authority catalog scope sight steps ++
        [target.canonical authority catalog scope
          (steps.foldl (Sight.behind · catalog scope) sight)] := by
  induction steps generalizing sight with
  | nil => rfl
  | cons step rest ih =>
    rw [List.cons_append, canonicalLinks, ih, canonicalLinks]
    rfl

theorem same_buildLinks (hk : catalog.Regular) (links : List Expr) :
    ∀ (previous : Value α) (sight : Sight), sight.Regular →
      Same scope sight.classes (buildLinks catalog scope previous links)
        (buildLinks catalog scope previous (canonicalLinks .both catalog scope sight links))
        fun _ _ => True := by
  induction links with
  | nil => exact fun _ _ _ => same_pure trivial
  | cons link rest ih =>
    intro previous sight hs
    rw [canonicalLinks, buildLinks, buildLinks, span_canonical]
    refine (same_buildExpr hk link sight hs).bind fun next _ h₁ => ?_
    refine (same_connect catalog previous next link.span).bind fun _ _ h₂ => ?_
    rw [h₂, h₁]
    exact ih next _ (hs.behind hk scope link)

theorem same_buildStatement (hk : catalog.Regular) (statement : Statement) {sight : Sight}
    (hs : sight.Regular) :
    Same scope sight.classes (buildStatement catalog scope statement : Work α Unit)
      (buildStatement catalog scope (statement.canonical .both catalog scope sight))
      fun _ _ => True := by
  cases statement with
  | error span => exact same_fail _ _
  | definition name value span =>
    exact (same_buildExpr hk value sight hs).bind fun built _ _ =>
      (same_define name built).imp fun _ _ _ => trivial
  | construction c =>
    obtain ⟨className, name, args, span⟩ := c
    exact (same_construction hk (argsSame hk args) className name span hs).bind fun _ _ _ =>
      same_pure trivial
  | chain source steps target span =>
    rw [Statement.canonical, buildStatement, buildStatement]
    refine (same_buildExpr hk source sight hs).bind fun first _ h₁ => ?_
    rw [h₁, ← canonicalLinks_append]
    exact same_buildLinks hk _ first _ (hs.behind hk scope source)

omit [Arithmetic α] in
theorem Valid.regular_sight {s : State α} (h : Valid catalog s) (hk : catalog.Regular)
    (scope : Scope) (names : Checking.Names) : (Sight.mk names (s.class? scope)).Regular := by
  intro name c hc
  obtain ⟨value, hfind, hvalue⟩ := Option.bind_eq_some_iff.mp hc
  rw [classOf.eq_def] at hvalue
  split at hvalue
  · cases hvalue
    exact h.regular hk (h.find? hfind _ List.mem_cons_self)
  · cases hvalue

/-- Lines and their canonical form are built into the same state, whatever the check makes of the
lines. -/
theorem buildLines_canonical (hk : catalog.Regular) (lines : List Line) (found : Checking.State)
    {s : State α} (h : Valid catalog s) :
    buildLines catalog s (canonicalLines .both catalog found s lines) =
      buildLines catalog s lines := by
  induction lines generalizing s found with
  | nil => rfl
  | cons line rest ih =>
    -- The line itself does the same, so that both go on from one state.
    have hafter : s.after (buildStatement catalog line.scope (line.statement.canonical .both catalog
        line.scope ⟨found.names, s.class? line.scope⟩)) =
          s.after (buildStatement catalog line.scope line.statement) := by
      have hsight := h.regular_sight hk line.scope found.names
      rw [State.after, (same_buildStatement hk line.statement hsight s rfl).1]
      rfl
    rw [canonicalLines, buildLines, buildLines, List.foldl_cons, List.foldl_cons, hafter]
    exact ih _ (Extends.after (keeps_buildStatement h hk line.scope line.statement)).valid

end Expressions
end Patchbay.Building
