import Patchbay.Proofs.Checking.Typing
import Patchbay.Proofs.Program.Canonical

/-! Where a check finds nothing wrong, what it knows of an object is what building knows: no name is
defined twice, so that the first definition is the last one. -/
namespace Patchbay

/-- The check knows no object under another class than building. -/
def Sight.Accords (sight : Sight) (catalog : Catalog) (scope : Scope) : Prop :=
  ∀ name c, sight.checked catalog scope name = some c → sight.classes name = some c

/-- Of an object that the check knows, any account gives the same proper names. -/
theorem Sight.Accords.canonicalPart {sight : Sight} {catalog : Catalog} {scope : Scope}
    (h : sight.Accords catalog scope) {object : Ident} {c : UnitClass}
    (hc : sight.checked catalog scope object.name = some c) (part : Ident)
    (proper? : UnitClass → String → Option String) (authority : Authority) :
    part.canonicalPart authority catalog scope sight proper? object =
      part.canonicalPart .both catalog scope sight proper? object := by
  have hall : ∀ authority : Authority,
      authority.choose (proper? · part.name) (some c) (some c) = proper? c part.name := by
    intro authority
    cases authority with
    | check => rfl
    | building => rfl
    | both => exact if_pos rfl
  rw [Ident.canonicalPart, Ident.canonicalPart, hc, h _ _ hc, hall, hall]

namespace Checking
variable {β γ : Type} {catalog : Catalog} {scope : Scope}

theorem Names.find?_put (names : Names) (scope : Scope) (name other : String) (d : Declaration) :
    (names.put scope name d).find? scope other =
      if other = name then some d else names.find? scope other := by
  cases scope <;> simp only [find?, put, Table.get?_put]
  split <;> rfl

/-- A new name keeps the accord. -/
theorem accords_declare {sight : Sight} (h : sight.Accords catalog scope) {name : Ident} {c : UnitClass} (hc : catalog.resolve? c.name = some c)
    (hnew : (sight.names.table scope).contains name.name = false) :
    (sight.declare scope (name, c)).Accords catalog scope := by
  rw [Sight.declare]
  split
  · exact h
  · intro other d hd
    dsimp only at hd ⊢
    rw [Sight.checked, Names.settle, hnew, if_neg Bool.false_ne_true, Names.find?_put] at hd
    split
    · next hsame =>
      rw [if_pos hsame, Option.bind_some] at hd
      exact hc.symm.trans hd
    · next hother =>
      rw [if_neg hother] at hd
      exact h other d hd

/-- A name that is defined without a fault is new. -/
theorem finds_define_new (scope : Scope) (name : Ident) (type : ValueType) :
    Finds (define scope name type) fun names _ names' =>
      (names.table scope).contains name.name = false ∧ names' = names.settle scope name type := by
  rw [define]
  split
  · exact (finds_report _ _).imp fun _ _ _ h => h.elim
  · refine finds_get _ fun s => ?_
    split
    · refine ⟨List.prefix_append _ _, fun hf => ?_⟩
      exact absurd (List.append_eq_nil_iff.mp hf).2 (List.cons_ne_nil _ _)
    · next hnew =>
      refine ⟨List.prefix_rfl, fun _ => ⟨Bool.eq_false_iff.mpr hnew, ?_⟩⟩
      rw [Names.settle, if_neg hnew]
      rfl

/-- Walks one after the other, of whose values nothing is said. -/
theorem Finds.seq {w : Walk β} {post : Names → Names → Prop}
    (h : Finds w fun names _ names' => post names names') {next : β → Walk γ}
    {post' : Names → Names → Prop}
    (hn : ∀ value, Finds (next value) fun names _ names' => post' names names') :
    Finds (w >>= next) fun names _ names'' => ∃ names', post names names' ∧ post' names' names'' := by
  refine (h.bind hn).imp ?_
  rintro names _ names'' ⟨_, names', hpost, hpost'⟩
  exact ⟨names', hpost, hpost'⟩

/-- What comes second leaves the names as they are. -/
theorem Finds.still {w : Walk β} {post : Names → Names → Prop}
    (h : Finds w fun names _ names' => post names names') {next : β → Walk γ}
    (hn : ∀ value, Finds (next value) fun names _ names' => names' = names) :
    Finds (w >>= next) fun names _ names' => post names names' := by
  refine (h.seq hn).imp ?_
  rintro names _ _ ⟨_, hpost, rfl⟩
  exact hpost

theorem finds_required (condition : Bool) (fault : Fault) (span : Span) :
    Finds (require condition fault span) fun names _ names' => names' = names :=
  (finds_require condition fault span).imp fun _ _ _ h => h.2

theorem finds_still (value : β) :
    Finds (pure value : Walk β) fun names _ names' => names' = names :=
  (finds_pure value).imp fun _ _ _ h => h.2

/-- From the names before to the names behind an expression an accord is kept, and any account gives
the same canonical form. -/
private def Clear (catalog : Catalog) (scope : Scope) (e : Expr) (names names' : Names) : Prop :=
  ∀ sight : Sight, sight.names = names → sight.Accords catalog scope →
    (sight.behind catalog scope e).names = names' ∧
      (sight.behind catalog scope e).Accords catalog scope ∧
        ∀ authority, e.canonical authority catalog scope sight =
          e.canonical .both catalog scope sight

/-- The same of arguments for a class. -/
private def ClearArgs (catalog : Catalog) (scope : Scope) (c : UnitClass) (args : List (Arg Expr))
    (names names' : Names) : Prop :=
  ∀ sight : Sight, sight.names = names → sight.Accords catalog scope →
    (sight.declareAll scope (argsDeclare catalog args)).names = names' ∧
      (sight.declareAll scope (argsDeclare catalog args)).Accords catalog scope ∧
        ∀ authority, canonicalArgs authority catalog scope (some c) sight args =
          canonicalArgs .both catalog scope (some c) sight args

private abbrev FindsClear (catalog : Catalog) (scope : Scope) (e : Expr) : Prop :=
  Finds (checkExpr catalog scope e) fun names _ names' => Clear catalog scope e names names'

private abbrev FindsClearArgs (catalog : Catalog) (scope : Scope) (args : List (Arg Expr)) : Prop :=
  (∀ c position assigned, Finds (checkArgs catalog scope c position assigned args)
    fun names _ names' => ClearArgs catalog scope c args names names') ∧
  Finds (checkValues catalog scope args) fun _ _ _ => True

private theorem clear_operand {e : Expr} (h : FindsClear catalog scope e) (fault : Fault)
    (span : Span) :
    Finds (do
      let type ← checkExpr catalog scope e
      require type.direction.output fault span) fun names _ names' =>
        Clear catalog scope e names names' :=
  h.still fun type => finds_required type.direction.output fault span

private theorem clear_cons {label : Option Label} {value : Expr} {rest : List (Arg Expr)}
    {c : UnitClass} {names names₁ names₂ : Names} (hv : Clear catalog scope value names names₁)
    (hr : ClearArgs catalog scope c rest names₁ names₂) :
    ClearArgs catalog scope c (⟨label, value⟩ :: rest) names names₂ := by
  intro sight hn ha
  obtain ⟨hn₁, ha₁, hvalue⟩ := hv sight hn ha
  obtain ⟨hn₂, ha₂, hrest⟩ := hr _ hn₁ ha₁
  rw [argsDeclare, Sight.declareAll_append]
  refine ⟨hn₂, ha₂, fun authority => ?_⟩
  rw [canonicalArgs, canonicalArgs, hvalue, hrest]

private theorem clear_args {label : Option Label} {value : Expr} {rest : List (Arg Expr)}
    (hv : FindsClear catalog scope value) (hr : FindsClearArgs catalog scope rest) :
    FindsClearArgs catalog scope (⟨label, value⟩ :: rest) := by
  refine ⟨fun c position assigned => ?_, ?_⟩
  · have assigning : ∀ (socket : String) (fault : Fault) (span : Span) (position : Nat),
        Finds (do
          let assigned ← assign assigned socket fault span
          checkArgs catalog scope c position assigned rest) fun names _ names' =>
            ClearArgs catalog scope c rest names names' := by
      intro socket fault span position
      refine ((finds_assign assigned socket fault span).seq fun assigned =>
        hr.1 c position assigned).imp ?_
      rintro names _ names' ⟨_, rfl, hrest⟩
      exact hrest
    cases label with
    | none =>
      rw [checkArgs]
      refine (hv.seq fun type => (finds_required type.direction.output _ _).seq fun _ =>
        (?_ : Finds _ fun names _ names' => ClearArgs catalog scope c rest names names')).imp ?_
      · dsimp only
        split
        · exact hr.1 c (position + 1) assigned
        · exact assigning _ _ _ (position + 1)
      · rintro names _ names' ⟨_, hvalue, _, rfl, hrest⟩
        exact clear_cons hvalue hrest
    | some label =>
      rw [checkArgs]
      refine (hv.seq fun type => (finds_required type.direction.output _ _).seq fun _ =>
        (?_ : Finds _ fun names _ names' => ClearArgs catalog scope c rest names names')).imp ?_
      · dsimp only
        split
        · refine ((finds_report _ _).seq fun _ => hr.1 c position assigned).imp ?_
          rintro names _ names' ⟨_, hfalse, _⟩
          exact hfalse.elim
        · exact assigning _ _ _ position
      · rintro names _ names' ⟨_, hvalue, _, rfl, hrest⟩
        exact clear_cons hvalue hrest
  · rw [checkValues]
    exact (hv.bind fun _ => hr.2).imp fun _ _ _ _ => trivial

/-- The name of a new object is new. -/
private theorem clear_declared (hk : catalog.Regular) {className : String} {c : UnitClass}
    (hc : catalog.resolve? className = some c) (name : Option Ident) :
    Finds (defineObject scope name (.object c)) fun names _ names' =>
      ∀ sight : Sight, sight.names = names → sight.Accords catalog scope →
        (sight.declareAll scope (declared (some c) name)).names = names' ∧
          (sight.declareAll scope (declared (some c) name)).Accords catalog scope := by
  cases name with
  | none =>
    refine (finds_still ()).imp ?_
    rintro names _ _ rfl sight hn ha
    exact ⟨hn, ha⟩
  | some name =>
    have hdeclare : ∀ sight : Sight, sight.declareAll scope (declared (some c) (some name)) =
      sight.declare scope (name, c) := fun _ => rfl
    rw [defineObject]
    split
    · next hd =>
      refine (finds_still ()).imp ?_
      rintro names _ _ rfl sight hn ha
      rw [hdeclare, Sight.declare, if_pos hd]
      exact ⟨hn, ha⟩
    · next hd =>
      refine (finds_define_new scope name (.object c)).imp ?_
      rintro names _ _ ⟨hnew, rfl⟩ sight rfl ha
      rw [hdeclare]
      refine ⟨?_, accords_declare ha (hk _ _ hc).2 hnew⟩
      rw [Sight.declare, if_neg hd]

private theorem clear_construction (hk : catalog.Regular) {args : List (Arg Expr)}
    (h : FindsClearArgs catalog scope args) (className : Ident) (name : Option Ident) (span : Span) :
    Finds (checkConstruction catalog scope ⟨className, name, args, span⟩) fun names _ names' =>
      Clear catalog scope (.construction ⟨className, name, args, span⟩) names names' := by
  rw [checkConstruction]
  split
  · refine ((finds_report _ _).bind fun _ => h.2.bind fun _ => finds_pure _).imp ?_
    rintro names _ _ ⟨_, _, hfalse, _⟩
    exact hfalse.elim
  · next c hc =>
    refine ((finds_required _ _ _).seq fun _ => (h.1 c 0 []).seq fun _ =>
      (clear_declared hk hc name).still fun _ => finds_still _).imp ?_
    rintro names _ names' ⟨_, rfl, _, hargs, hname⟩ sight hn ha
    obtain ⟨hn₁, ha₁, hform⟩ := hargs sight hn ha
    rw [Sight.behind, Expr.declares, Construction.declares, hc, Sight.declareAll_append]
    obtain ⟨hn₂, ha₂⟩ := hname _ hn₁ ha₁
    refine ⟨hn₂, ha₂, fun authority => ?_⟩
    rw [Expr.canonical, Expr.canonical, Construction.canonical, Construction.canonical, hc, hform]

theorem checked_of_ofClass {sight : Sight} {name : String} {c : UnitClass}
    (h : OfClass catalog scope name sight.names c) :
    sight.checked catalog scope name = some c := by
  obtain ⟨d, className, hd, hclass, hc⟩ := h
  rw [Sight.checked, hd, Option.bind_some, hclass, Option.bind_some, hc]

theorem clear_checkExpr (hk : catalog.Regular) (e : Expr) : FindsClear catalog scope e := by
  induction e using Expr.induction (FindsClearArgs catalog scope) with
  | error span =>
    rw [FindsClear, checkExpr]
    refine finds_noted _ ((finds_pure _).imp ?_)
    rintro names _ _ ⟨_, rfl⟩ sight hn ha
    exact ⟨hn, ha, fun _ => rfl⟩
  | number value unit span =>
    rw [FindsClear, checkExpr]
    refine finds_noted _ ((finds_pure _).imp ?_)
    rintro names _ _ ⟨_, rfl⟩ sight hn ha
    exact ⟨hn, ha, fun _ => rfl⟩
  | unary sign operand span ih =>
    rw [FindsClear, checkExpr]
    refine finds_noted _ (((clear_operand ih _ _).still fun _ => finds_still _).imp ?_)
    intro names _ names' h sight hn ha
    obtain ⟨hn₁, ha₁, hoperand⟩ := h sight hn ha
    refine ⟨hn₁, ha₁, fun authority => ?_⟩
    rw [Expr.canonical, Expr.canonical, hoperand]
  | binary op left right span ihl ihr =>
    rw [FindsClear, checkExpr]
    refine finds_noted _ (((clear_operand ihl _ _).seq fun _ =>
      (clear_operand ihr _ _).still fun _ => finds_still _).imp ?_)
    rintro names _ names' ⟨_, hl, hr⟩ sight hn ha
    obtain ⟨hn₁, ha₁, hleft⟩ := hl sight hn ha
    obtain ⟨hn₂, ha₂, hright⟩ := hr _ hn₁ ha₁
    rw [Sight.behind_binary]
    refine ⟨hn₂, ha₂, fun authority => ?_⟩
    rw [Expr.canonical, Expr.canonical, hleft, hright]
  | mapping polarity source low high span ihs ihl ihh =>
    rw [FindsClear, checkExpr]
    refine finds_noted _ (((clear_operand ihs _ _).seq fun _ => (clear_operand ihl _ _).seq fun _ =>
      (clear_operand ihh _ _).still fun _ => finds_still _).imp ?_)
    rintro names _ names' ⟨_, hs, _, hl, hh⟩ sight hn ha
    obtain ⟨hn₁, ha₁, hsource⟩ := hs sight hn ha
    obtain ⟨hn₂, ha₂, hlow⟩ := hl _ hn₁ ha₁
    obtain ⟨hn₃, ha₃, hhigh⟩ := hh _ hn₂ ha₂
    rw [Sight.behind_mapping]
    refine ⟨hn₃, ha₃, fun authority => ?_⟩
    rw [Expr.canonical, Expr.canonical, hsource, hlow, hhigh]
  | construction className name values span ih =>
    rw [FindsClear, checkExpr]
    exact finds_noted _ (clear_construction hk ih className name span)
  | socket object socket span =>
    rw [FindsClear, checkExpr]
    refine ((finds_findObject catalog scope .socket object).found (q := fun _ names _ names' =>
      names' = names) ?_ fun c => ?_).imp ?_
    · exact finds_noted span ((finds_pure ValueType.sink).imp fun _ _ _ _ => trivial)
    · exact finds_noted span ((finds_checked (c.hasSocket socket.name) _ _ ValueType.sink).imp
        fun _ _ _ h => h.2.2)
    · rintro names _ _ ⟨c, hc, rfl⟩ sight hn ha
      refine ⟨hn, ha, fun authority => ?_⟩
      rw [Expr.canonical, Expr.canonical, ha.canonicalPart (checked_of_ofClass (hn ▸ hc))]
  | output object output span =>
    rw [FindsClear, checkExpr]
    refine ((finds_findObject catalog scope .output object).found (q := fun _ names _ names' =>
      names' = names) ?_ fun c => ?_).imp ?_
    · exact finds_noted span ((finds_pure ValueType.source).imp fun _ _ _ _ => trivial)
    · exact finds_noted span ((finds_checked (c.hasOutput output.name) _ _ ValueType.source).imp
        fun _ _ _ h => h.2.2)
    · rintro names _ _ ⟨c, hc, rfl⟩ sight hn ha
      refine ⟨hn, ha, fun authority => ?_⟩
      rw [Expr.canonical, Expr.canonical, ha.canonicalPart (checked_of_ofClass (hn ▸ hc))]
  | name ident =>
    rw [FindsClear, checkExpr]
    refine ((finds_find scope ident).found (q := fun _ names _ names' => names' = names) ?_
      fun d => ?_).imp ?_
    · exact finds_noted ident.span ((finds_pure ValueType.unknown).imp fun _ _ _ _ => trivial)
    · exact finds_noted ident.span (finds_still d.type)
    · rintro names _ _ ⟨_, _, rfl⟩ sight hn ha
      exact ⟨hn, ha, fun _ => rfl⟩
  | nil =>
    refine ⟨fun c position assigned => ?_, ?_⟩
    · rw [checkArgs]
      refine (finds_pure ()).imp ?_
      rintro names _ _ ⟨_, rfl⟩ sight hn ha
      exact ⟨hn, ha, fun _ => rfl⟩
    · rw [checkValues]
      exact (finds_pure ()).imp fun _ _ _ _ => trivial
  | cons label value rest ihv ihr => exact clear_args ihv ihr

private theorem clear_checkSteps (hk : catalog.Regular) (steps : List Expr) :
    Finds (checkSteps catalog scope steps) fun names _ names' =>
      ∀ sight : Sight, sight.names = names → sight.Accords catalog scope →
        (steps.foldl (Sight.behind · catalog scope) sight).names = names' ∧
          (steps.foldl (Sight.behind · catalog scope) sight).Accords catalog scope ∧
            ∀ authority, canonicalLinks authority catalog scope sight steps =
              canonicalLinks .both catalog scope sight steps := by
  induction steps with
  | nil =>
    refine (finds_still ()).imp ?_
    rintro names _ _ rfl sight hn ha
    exact ⟨hn, ha, fun _ => rfl⟩
  | cons step rest ih =>
    rw [checkSteps]
    refine ((clear_checkExpr hk step).seq fun type =>
      (finds_required type.direction.input _ _).seq fun _ =>
        (finds_required type.direction.output _ _).seq fun _ => ih).imp ?_
    rintro names _ names' ⟨_, hstep, _, rfl, _, rfl, hrest⟩ sight hn ha
    obtain ⟨hn₁, ha₁, hform⟩ := hstep sight hn ha
    obtain ⟨hn₂, ha₂, hforms⟩ := hrest _ hn₁ ha₁
    refine ⟨hn₂, ha₂, fun authority => ?_⟩
    rw [canonicalLinks, canonicalLinks, hform, hforms]

/-- In a statement without faults any account gives the same canonical form. -/
theorem clear_checkStatement (hk : catalog.Regular) (statement : Statement) :
    Finds (checkStatement catalog scope statement) fun names _ _ =>
      ∀ sight : Sight, sight.names = names → sight.Accords catalog scope →
        ∀ authority, statement.canonical authority catalog scope sight =
          statement.canonical .both catalog scope sight := by
  cases statement with
  | error span => exact (finds_pure ()).imp fun _ _ _ _ _ _ _ _ => rfl
  | definition name value span =>
    refine ((clear_checkExpr hk value).bind fun type => finds_define scope name type).imp ?_
    rintro names _ _ ⟨_, _, hvalue, _⟩ sight hn ha authority
    rw [Statement.canonical, Statement.canonical, (hvalue sight hn ha).2.2]
  | construction c =>
    have hc : Finds (checkConstruction catalog scope c) fun names _ names' =>
        Clear catalog scope (.construction c) names names' := by
      have hnoted : FindsClear catalog scope (.construction c) := clear_checkExpr hk _
      rw [FindsClear, checkExpr] at hnoted
      exact hnoted
    refine (hc.seq fun _ => finds_still ()).imp ?_
    rintro names _ _ ⟨_, hc, _⟩ sight hn ha authority
    have hform := (hc sight hn ha).2.2 authority
    rw [Expr.canonical, Expr.canonical] at hform
    rw [Statement.canonical, Statement.canonical, Expr.construction.inj hform]
  | chain source steps target span =>
    refine ((clear_checkExpr hk source).seq fun type =>
      (finds_required type.direction.output _ _).seq fun _ =>
        (clear_checkSteps hk steps).seq fun _ => (clear_checkExpr hk target).seq fun last =>
          finds_required last.direction.input _ _).imp ?_
    rintro names _ _ ⟨_, hsource, _, rfl, _, hsteps, _, htarget, _⟩ sight hn ha authority
    obtain ⟨hn₁, ha₁, hform₁⟩ := hsource sight hn ha
    obtain ⟨hn₂, ha₂, hform₂⟩ := hsteps _ hn₁ ha₁
    obtain ⟨_, _, hform₃⟩ := htarget _ hn₂ ha₂
    rw [Statement.canonical, Statement.canonical, hform₁, hform₂, hform₃]

end Checking
end Patchbay
