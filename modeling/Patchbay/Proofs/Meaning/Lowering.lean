import Patchbay.Proofs.Building.Faults
import Patchbay.Proofs.Meaning.Operators

/-! Building typed lines keeps to what they say: line by line, state and story stay in agreement. -/
namespace Patchbay.Meaning
open Building Checking
variable {α β γ : Type} [ExactArithmetic α] {rate : α} {seed : UInt64}

/-- The standard catalog. -/
abbrev catalog : Catalog := Library.standard.catalog

/-- Work and reading end with what agrees, unless the work ends in a fault. -/
def Lowers (rate : α) (seed : UInt64) (s : State α) (t : Story α) (w : Work α β) (m : Telling α γ)
    (post : β → γ → State α → Prop) : Prop :=
  Leads w s (fun b s' => ∃ c t', m.run t = some (c, t') ∧ Tells rate seed s' t' ∧ Grown s s' ∧
    post b c s') fun _ _ => True

section Steps
variable {δ ε : Type} {scope : Scope} {names names' : Names} {s s' : State α} {t : Story α}
  {w : Work α β} {m : Telling α γ} {post : β → γ → State α → Prop}

theorem Lowers.bind (h : Lowers rate seed s t w m post) {next : β → Work α δ} {next' : γ → Telling α ε}
    {post' : δ → ε → State α → Prop}
    (hn : ∀ b c s' t', Tells rate seed s' t' → Grown s s' → post b c s' →
      Lowers rate seed s' t' (next b) (next' c) post') :
    Lowers rate seed s t (w >>= next) (m >>= next') post' := by
  rw [Lowers, leads_bind]
  refine Leads.imp h ?_ fun _ _ _ => trivial
  rintro b s' ⟨c, t', hrun, htells, hgrown, hpost⟩
  refine Leads.imp (hn b c s' t' htells hgrown hpost) ?_ fun _ _ _ => trivial
  rintro d s'' ⟨e, t'', hrun', htells', hgrown', hpost'⟩
  refine ⟨e, t'', ?_, htells', hgrown.trans hgrown', hpost'⟩
  rw [StateT.run_bind, hrun]
  exact hrun'

theorem Lowers.pure (h : Tells rate seed s t) {b : β} {c : γ} (hp : post b c s) :
    Lowers rate seed s t (pure b) (pure c) post := ⟨c, t, rfl, h, .refl s, hp⟩

/-- What is read off without a change of the story. -/
theorem Lowers.read {read : Option δ} {d : δ} (hd : read = some d) {next : δ → Telling α γ}
    (h : Lowers rate seed s t w (next d) post) :
    Lowers rate seed s t w (do next (← read)) post := by
  subst hd
  exact h

/-- Work that says nothing new. -/
theorem Lowers.work {post' : β → State α → Prop}
    (h : Leads w s (fun b s' => Tells rate seed s' t ∧ Grown s s' ∧ post' b s') fun _ _ => True)
    {next : β → Work α δ} {post : δ → γ → State α → Prop}
    (hn : ∀ b s', Tells rate seed s' t → Grown s s' → post' b s' →
      Lowers rate seed s' t (next b) m post) :
    Lowers rate seed s t (w >>= next) m post := by
  rw [Lowers, leads_bind]
  refine Leads.imp h ?_ fun _ _ _ => trivial
  rintro b s' ⟨htells, hgrown, hpost⟩
  refine Leads.imp (hn b s' htells hgrown hpost) ?_ fun _ _ _ => trivial
  rintro d s'' ⟨c, t', hrun, htells', hgrown', hpost'⟩
  exact ⟨c, t', hrun, htells', hgrown.trans hgrown', hpost'⟩

theorem Lowers.imp (h : Lowers rate seed s t w m post) {post' : β → γ → State α → Prop}
    (hp : ∀ b c s', post b c s' → post' b c s') : Lowers rate seed s t w m post' := by
  refine Leads.imp h ?_ fun _ _ _ => trivial
  rintro b s' ⟨c, t', hrun, htells, hgrown, hpost⟩
  exact ⟨c, t', hrun, htells, hgrown, hp b c s' hpost⟩

theorem Lowers.sound {fits : β → List Shape → Prop} {uses : List Use}
    (hs : Sound catalog scope noName uses names' s w fits) (h : Lowers rate seed s t w m post) :
    Lowers rate seed s t w m fun b c s' =>
      post b c s' ∧ Agrees catalog scope noName names' s' ∧ fits b s'.shapes := by
  refine Leads.imp (Leads.and hs h) ?_ fun _ _ _ => trivial
  rintro b s' ⟨⟨_, hagrees, hfits⟩, c, t', hrun, htells, hgrown, hpost⟩
  exact ⟨c, t', hrun, htells, hgrown, hpost, hagrees, hfits⟩

/-- An operation whose value means a signal. -/
theorem Lowers.operation {f : Signals α → α} {w : Work α (Value α)}
    (h : Leads w s (Yields rate seed s t f) fun _ _ => True) :
    Lowers rate seed s t w (Pure.pure (.signal f)) fun v sense s' => Means rate seed s' v sense := by
  refine Leads.imp h ?_ fun _ _ _ => trivial
  rintro v s' ⟨htells, hgrown, hmeans⟩
  exact ⟨_, t, rfl, htells, hgrown, hmeans⟩

private theorem tells_unchanged (h : Tells rate seed s t) (hobjects : s'.objects = s.objects)
    (hglobal : s'.global = s.global) (hvoice : s'.voice = s.voice) :
    Tells rate seed s' t ∧ Grown s s' := by
  have hshapes : s'.shapes = s.shapes := by rw [State.shapes, hobjects, State.shapes]
  have hg : Grown s s' := by
    refine ⟨hshapes ▸ List.prefix_rfl, fun id d hd _ => ?_⟩
    rw [hobjects]
    exact hd
  exact ⟨h.grow hg (by rw [hshapes]) (by rw [hshapes]) (hshapes ▸ h.operators)
    (fun _ _ => by rw [hobjects]) hglobal hvoice, hg⟩

theorem lowers_literal (h : Tells rate seed s t) (value : Float) (unit : String) (span : Span) :
    Lowers rate seed s t (literal value unit span)
      (Pure.pure (.signal fun _ => number value unit)) fun v sense s' =>
        Means rate seed s' v sense := by
  rw [literal]
  split
  · next x hx =>
    have hnumber : number value unit = x := by rw [number, hx, Option.getD_some]
    rw [hnumber]
    exact .pure h (means_constant x _)
  · next hx =>
    have hnumber : (number value unit : α) = Arithmetic.ofFloat value := by
      rw [number, hx, Option.getD_none]
    have hwarn : Tells rate seed
        { s with warnings := s.warnings ++ [⟨.unknownUnit unit, some span⟩] } t ∧ Grown s _ :=
      tells_unchanged h rfl rfl rfl
    rw [hnumber]
    exact ⟨_, t, rfl, hwarn.1, hwarn.2, means_constant _ _⟩

/-- An object that a name stands for. -/
theorem lowers_findObject (h : Agrees catalog scope noName names s) (htells : Tells rate seed s t)
    {ident : Ident} {d : Checking.Declaration} (hd : names.find? scope ident.name = some d)
    {className : String} (hclass : d.type.className = some className) {c : UnitClass}
    (hc : catalog.resolve? className = some c) (part : Part) :
    Lowers rate seed s t (Building.findObject scope part ident : Work α Ref)
      (findObject scope ident.name) fun ref found s' =>
        ref.cls = c ∧ found.2 = c ∧ (places s'.shapes)[found.1]? = some ref.id := by
  have hfind := h.find? ident.name id
  have hmeans := htells.find? scope ident.name
  rw [hd] at hfind
  rw [Lowers, leads_findObject]
  cases hbound : s.find? scope ident.name with
  | none =>
    rw [hbound] at hfind
    cases hfind
  | some v =>
    rw [hbound] at hfind hmeans
    cases hfind with
    | some hv =>
      obtain ⟨ref, span, rfl, hres, hp⟩ := hv.object className hclass
      rw [hc] at hres
      cases hsense : t.find? scope ident.name with
      | none =>
        rw [hsense] at hmeans
        cases hmeans
      | some sense =>
        rw [hsense] at hmeans
        cases hmeans with
        | some hm =>
          obtain ⟨k, rfl, hk⟩ := hm.of_placed hp
          have hcls := (Option.some.inj hres).symm
          refine ⟨(k, ref.cls), t, ?_, htells, .refl s, hcls, hcls, hk⟩
          have hrun : (find scope ident.name).run t = some (.object k ref.cls, t) := by
            show (liftM (t.find? scope ident.name) : Telling α (Sense α)).run t = _
            rw [hsense]
            rfl
          rw [findObject, StateT.run_bind, hrun]
          rfl

theorem lowers_mixInto (h : Tells rate seed s t) {k id : Nat} (hk : (places s.shapes)[k]? = some id)
    (index : Nat) {v : Value α} (hv : ∀ a ∈ v, Readable a) {f : Signals α → α}
    (hf : Carries rate seed s v f) :
    Lowers rate seed s t (mixInto id index v) (send k index f) fun _ _ _ => True := by
  have hg : gather v = ((gather v).1, none) := Prod.ext rfl (gather_readable hv)
  rw [Lowers, leads_mixInto, hg]
  exact ⟨(), _, rfl, h.send hf hk index, grown_mix (mem_places.mp (List.mem_of_getElem? hk)) _ _,
    trivial⟩

theorem lowers_define (h : Tells rate seed s t) {v : Value α} {sense : Sense α}
    (hm : Means rate seed s v sense) (name : Ident) :
    Lowers rate seed s t (Building.define scope name v) (define scope name sense) fun _ _ s' =>
      s'.shapes = s.shapes := by
  have parameter : Leads (addParameter scope name v) s (fun _ s' => Tells rate seed s' t ∧
      Grown s s' ∧ s'.shapes = s.shapes) fun _ _ => True := by
    rw [addParameter.eq_def]
    split
    · next ref _ =>
      split
      · exact ⟨h, .refl s, rfl⟩
      · cases scope with
        | voice => exact trivial
        | global =>
          have hmore : Tells rate seed
              { s with parameters := s.parameters ++ [⟨name.name, ref.id⟩] } t ∧ Grown s _ :=
            tells_unchanged h rfl rfl rfl
          exact ⟨hmore.1, hmore.2, rfl⟩
    · exact ⟨h, .refl s, rfl⟩
  refine Lowers.work parameter fun _ s' h' hg hs => ?_
  rw [define]
  split
  · exact .pure h' hs
  · refine ⟨(), _, rfl, h'.bind (hm.mono hg) scope name.name, ?_, ?_⟩
    · cases scope <;> exact ⟨List.prefix_rfl, fun _ _ hd _ => hd⟩
    · exact (s'.shapes_bind scope name.name v).trans hs

theorem lowers_addObject (h : Tells rate seed s t) (cls : UnitClass) (span : Option Span) :
    Lowers rate seed s t (addObject cls scope .written span) (newObject cls) fun ref k s' =>
      ref.cls = cls ∧ (places s'.shapes)[k]? = some ref.id := by
  have ho : Origin.written ≠ .operator := Origin.noConfusion
  rw [Lowers, leads_addObject]
  refine ⟨_, _, rfl, h.add cls scope ho span, grown_add s _, rfl, ?_⟩
  rw [h.length_objects]
  exact getElem?_places_length s ho

/-- A value that can be read, and the signal that it carries. -/
structure Reading (rate : α) (seed : UInt64) (s : State α) (v : Value α) (f : Signals α → α) :
    Prop where
  nonempty : v ≠ []
  readable : ∀ a ∈ v, Readable a
  carries : Carries rate seed s v f

theorem Reading.mono {v : Value α} {f : Signals α → α} (h : Reading rate seed s v f)
    (hs : Grown s s') : Reading rate seed s' v f := ⟨h.nonempty, h.readable, h.carries.mono hs⟩

/-- What is built for an operand is read, and so is the signal that it means. -/
theorem lowers_operand {e : Expr} {type : ValueType}
    (hv : Lowers rate seed s t (buildExpr catalog scope e) (evalExpr catalog scope e)
      fun v sense s' => Means rate seed s' v sense ∧ Agrees catalog scope noName names s' ∧
        Fits catalog s'.shapes type v)
    (hout : type.direction.output = true) {next : Value α → Work α β}
    {next' : (Signals α → α) → Telling α γ}
    (hn : ∀ v f s' t', Tells rate seed s' t' → Grown s s' → Agrees catalog scope noName names s' →
      Reading rate seed s' v f → Lowers rate seed s' t' (next v) (next' f) post) :
    Lowers rate seed s t (do next (← buildExpr catalog scope e))
      (do next' (← (← evalExpr catalog scope e).signal?)) post := by
  refine hv.bind fun v sense s₁ t₁ htells₁ hgrown₁ hv' => ?_
  obtain ⟨hmeans, h₁, hfits⟩ := hv'
  have hread := hfits.output hout
  obtain ⟨f, hf, hcarries⟩ := hmeans.signal? hread
  exact .read hf (hn v f s₁ t₁ htells₁ hgrown₁ h₁ ⟨hmeans.ne_nil, hread, hcarries⟩)

/-- What is built for an argument goes to its socket, and so does the signal that it means. -/
theorem lowers_argument {value : Expr} {type : ValueType}
    (hv : Lowers rate seed s t (buildExpr catalog scope value) (evalExpr catalog scope value)
      fun v sense s' => Means rate seed s' v sense ∧ Agrees catalog scope noName names s' ∧
        Fits catalog s'.shapes type v)
    (hout : type.direction.output = true) {object : Ref} {k index : Nat}
    (hk : (places s.shapes)[k]? = some object.id) {socket : String}
    (hi : object.cls.socketIndex? socket = some index) {next : Work α β} {next' : Telling α γ}
    (hn : ∀ s' t', Agrees catalog scope noName names s' → Tells rate seed s' t' →
      (places s'.shapes)[k]? = some object.id → Lowers rate seed s' t' next next' post) :
    Lowers rate seed s t (do
        let built ← buildExpr catalog scope value
        plug object socket built
        next)
      (do
        send k index (← (← evalExpr catalog scope value).signal?)
        next') post := by
  refine lowers_operand hv hout fun v f s₁ t₁ htells₁ hgrown₁ h₁ hr => ?_
  have hk₁ := getElem?_mono (places_mono hgrown₁.shapes) hk
  have hsocket : Sound catalog scope noName [] names s₁ (plug object socket v) Any :=
    sound_plug h₁ (.inl hr.readable) (UnitClass.hasSocket_iff.mpr ⟨index, hi⟩)
  have hplug : Lowers rate seed s₁ t₁ (plug object socket v) (send k index f) fun _ _ _ => True := by
    rw [plug, hi]
    exact lowers_mixInto htells₁ hk₁ index hr.readable hr.carries
  refine (Lowers.sound hsocket hplug).bind ?_
  rintro _ _ s₂ t₂ htells₂ hgrown₂ ⟨_, h₂, _⟩
  exact hn s₂ t₂ h₂ htells₂ (getElem?_mono (places_mono hgrown₂.shapes) hk₁)

/-- What is taken away is added as its negative. -/
theorem lowers_subtract (h : Tells rate seed s t) {v w : Value α} {f g : Signals α → α}
    (hv : Reading rate seed s v f) (hw : Reading rate seed s w g) (span : Span) :
    Lowers rate seed s t (do return v ++ (← negate catalog scope w span))
      (Pure.pure (.signal fun ρ => f ρ - g ρ)) fun v sense s' => Means rate seed s' v sense := by
  refine Lowers.work (leads_negate h hw.readable hw.carries span) ?_
  intro n s' htells hgrown hmeans
  cases hmeans with
  | signal hne hread _ hnegative =>
    refine .pure htells ?_
    simp only [sub_eq_add_neg]
    exact means_append hv.nonempty hne hv.readable hread (hv.carries.mono hgrown) hnegative

/-- A new object means itself, once its arguments have gone to its sockets. -/
theorem lowers_construction {className : Ident} {name : Option Ident} {args : List (Arg Expr)}
    {span : Span} {c : UnitClass} (hc : catalog.resolve? className.name = some c)
    (h : Agrees catalog scope noName names s) (htells : Tells rate seed s t)
    (hargs : ∀ (s : State α) (t : Story α) (object : Ref) (k : Nat), Agrees catalog scope noName names s →
      Tells rate seed s t → object.cls = c → c.Regular →
        (places s.shapes)[k]? = some object.id →
          Lowers rate seed s t (buildArgs catalog scope object 0 args)
            (evalArgs catalog scope k c 0 args) fun _ _ _ => True) :
    Lowers rate seed s t (buildConstruction catalog scope ⟨className, name, args, span⟩)
      (evalConstruction catalog scope ⟨className, name, args, span⟩) fun v sense s' =>
        Means rate seed s' v sense := by
  rw [buildConstruction, evalConstruction]
  have hclass : Leads (classUnder catalog className.name (some className.span)) s
      (fun found s' => Tells rate seed s' t ∧ Grown s s' ∧ found = c ∧ s' = s) fun _ _ => True := by
    rw [leads_classUnder, hc]
    exact ⟨htells, .refl s, rfl, rfl⟩
  refine .read hc (Lowers.work hclass ?_)
  rintro found s₀ _ _ ⟨rfl, rfl⟩
  have hadded : Sound catalog scope noName [] names s₀
      (addObject found scope .written (some span)) _ := sound_addObject h _ _ _
  refine (Lowers.sound hadded (lowers_addObject htells found (some span))).bind ?_
  rintro ref k s₁ t₁ htells₁ _ ⟨⟨rfl, hk⟩, h₁, _⟩
  have hreg := (Library.standard_regular _ _ hc).1
  refine (hargs s₁ t₁ ref k h₁ htells₁ rfl hreg hk).bind fun _ _ s₂ t₂ htells₂ hgrown₂ _ => ?_
  have hmeans : Means rate seed s₂ [.object ref (some span)] (.object k ref.cls) :=
    .object (getElem?_mono (places_mono hgrown₂.shapes) hk)
  cases name with
  | none => exact .pure htells₂ hmeans
  | some name =>
    refine (lowers_define htells₂ hmeans name).bind fun _ _ s₃ t₃ htells₃ hgrown₃ _ => ?_
    exact .pure htells₃ (hmeans.mono hgrown₃)

/-- A built expression means what it says. -/
theorem lowers_buildExpr {judgment : Checking.Judgment}
    (ht : Checking.Typed catalog scope names judgment names') :
    match judgment with
    | .expr e type => ∀ (s : State α) (t : Story α), Agrees catalog scope noName names s →
      Tells rate seed s t →
        Lowers rate seed s t (buildExpr catalog scope e) (evalExpr catalog scope e)
          fun v sense s' => Means rate seed s' v sense ∧ Agrees catalog scope noName names' s' ∧
            Fits catalog s'.shapes type v
    | .args c position args => ∀ (s : State α) (t : Story α) (object : Ref) (k : Nat),
      Agrees catalog scope noName names s → Tells rate seed s t → object.cls = c → c.Regular →
        (places s.shapes)[k]? = some object.id →
          Lowers rate seed s t (buildArgs catalog scope object position args)
            (evalArgs catalog scope k c position args) fun _ _ _ => True := by
  have sound {e : Expr} {type : ValueType} {names names' : Names}
      (ht : Checking.Typed catalog scope names (.expr e type) names') {s : State α}
      (h : Agrees catalog scope noName names s) :=
    fits_buildExpr standard_operable Library.standard_regular ht h
  induction ht with
  | number =>
    intro s t h htells
    refine Lowers.sound (sound .number h) ?_
    rw [buildExpr, evalExpr]
    exact lowers_literal htells _ _ _
  | unary ht hout ih =>
    rename_i sign operand span type
    intro s t h htells
    refine Lowers.sound (sound (.unary ht hout) h) ?_
    rw [buildExpr, evalExpr]
    refine (ih s t h htells).bind fun v sense s₁ t₁ htells₁ _ hv => ?_
    obtain ⟨hmeans, _, hfits⟩ := hv
    cases sign with
    | plus => exact .pure htells₁ hmeans
    | minus =>
      obtain ⟨f, hf, hcarries⟩ := hmeans.signal? (hfits.output hout)
      refine .read hf (.operation ?_)
      exact leads_negate htells₁ (hfits.output hout) hcarries _
  | binary htl houtl htr houtr ihl ihr =>
    rename_i op left right span l r
    intro s t h htells
    refine Lowers.sound (sound (.binary htl houtl htr houtr) h) ?_
    rw [buildExpr, evalExpr]
    refine lowers_operand (ihl s t h htells) houtl fun v f s₁ t₁ htells₁ _ h₁ hv => ?_
    refine lowers_operand (ihr s₁ t₁ h₁ htells₁) houtr fun w g s₂ t₂ htells₂ hgrown₂ _ hw => ?_
    have hv₂ := hv.mono hgrown₂
    cases op with
    | add =>
      exact .pure htells₂ (means_append hv.nonempty hw.nonempty hv.readable hw.readable
        hv₂.carries hw.carries)
    | subtract => exact lowers_subtract htells₂ hv₂ hw span
    | multiply =>
      exact .operation (leads_scale htells₂ hv.readable hw.readable hv₂.carries hw.carries span)
  | mapping hts houts htl houtl hth houth ihs ihl ihh =>
    rename_i polarity source low high span sourceType lowType highType
    intro s t h htells
    refine Lowers.sound (sound (.mapping hts houts htl houtl hth houth) h) ?_
    rw [buildExpr, evalExpr]
    refine lowers_operand (ihs s t h htells) houts fun v f s₁ t₁ htells₁ _ h₁ hv => ?_
    refine lowers_operand (ihl s₁ t₁ h₁ htells₁) houtl fun w g s₂ t₂ htells₂ hgrown₂ h₂ hw => ?_
    refine lowers_operand (ihh s₂ t₂ h₂ htells₂) houth fun x k s₃ t₃ htells₃ hgrown₃ _ hx => ?_
    refine .operation ?_
    exact leads_mapping htells₃ hv.readable hw.readable hx.readable
      (hv.mono (hgrown₂.trans hgrown₃)).carries (hw.mono hgrown₃).carries hx.carries polarity span
  | construction hc hargs ih =>
    intro s t h htells
    refine Lowers.sound (sound (.construction hc hargs) h) ?_
    rw [buildExpr, evalExpr]
    exact lowers_construction hc h htells ih
  | socket hd hclass hc hsocket =>
    intro s t h htells
    refine Lowers.sound (sound (.socket hd hclass hc hsocket) h) ?_
    rw [buildExpr, evalExpr]
    refine (lowers_findObject h htells hd hclass hc .socket).bind ?_
    rintro ref ⟨k, _⟩ s₁ t₁ htells₁ _ ⟨rfl, rfl, hk⟩
    obtain ⟨index, hindex⟩ := UnitClass.hasSocket_iff.mp hsocket
    refine .read hindex ?_
    rw [hindex]
    exact .pure htells₁ (.socket hk)
  | output hd hclass hc houtput =>
    intro s t h htells
    refine Lowers.sound (sound (.output hd hclass hc houtput) h) ?_
    rw [buildExpr, evalExpr]
    refine (lowers_findObject h htells hd hclass hc .output).bind ?_
    rintro ref ⟨k, _⟩ s₁ t₁ htells₁ _ ⟨rfl, rfl, hk⟩
    obtain ⟨name, hname⟩ := UnitClass.hasOutput_iff.mp houtput
    refine .read hname ?_
    rw [hname]
    exact .pure htells₁ (means_output hk name _)
  | name hd =>
    rename_i names ident d
    intro s t h htells
    refine Lowers.sound (sound (.name hd) h) ?_
    rw [buildExpr, evalExpr, Lowers, leads_find]
    have hmeans := htells.find? scope ident.name
    cases hbound : s.find? scope ident.name with
    | none => exact trivial
    | some v =>
      rw [hbound] at hmeans
      generalize hsense : t.find? scope ident.name = sense at hmeans
      cases hmeans with
      | some hm =>
        refine ⟨_, t, ?_, htells, .refl s, hm⟩
        show (liftM (t.find? scope ident.name) : Telling α (Sense α)).run t = _
        rw [hsense]
        rfl
  | nil =>
    intro s t object k h htells _ _ _
    rw [buildArgs, evalArgs]
    exact .pure htells trivial
  | positional hs htv hout _ ihv ihr =>
    rename_i names names₁ names₂ c position socket value rest type
    rintro s t object k h htells rfl hreg hk
    rw [buildArgs, evalArgs, hs]
    obtain ⟨index, hindex⟩ := hreg.positionalSocket? hs
    refine .read (d := index) (by rw [Option.bind_some, hindex]) ?_
    refine lowers_argument (ihv s t h htells) hout hk hindex fun s' t' h' htells' hk' => ?_
    exact ihr s' t' object k h' htells' rfl hreg hk'
  | labelled hs htv hout _ ihv ihr =>
    rename_i names names₁ names₂ c position label socket value rest type
    rintro s t object k h htells rfl hreg hk
    rw [buildArgs, evalArgs, hs]
    obtain ⟨index, hindex⟩ := UnitClass.hasSocket_iff.mp (hreg.hasSocket_canonicalSocket? hs)
    refine .read ((hreg.socketIndex?_canonicalSocket? hs).symm.trans hindex) ?_
    refine lowers_argument (ihv s t h htells) hout hk hindex fun s' t' h' htells' hk' => ?_
    exact ihr s' t' object k h' htells' rfl hreg hk'

/-- What goes to both sides of an object. -/
theorem lowers_connectSides (h : Tells rate seed s t) {v : Value α} {sense : Sense α}
    (hm : Means rate seed s v sense) (hv : ∀ a ∈ v, Readable a) {ref : Ref} {k : Nat}
    (hk : (places s.shapes)[k]? = some ref.id) (left right : Nat) :
    Lowers rate seed s t (Building.connectSides v ref left right) (connectSides sense k left right)
      fun _ _ _ => True := by
  obtain ⟨f, hf, hcarries⟩ := hm.signal? hv
  have both : Lowers rate seed s t (do mixInto ref.id left v; mixInto ref.id right v)
      (do
        let signal ← sense.signal?
        send k left signal
        send k right signal) fun _ _ _ => True := by
    refine .read hf ((lowers_mixInto h hk left hv hcarries).bind fun _ _ s₁ t₁ h₁ hgrown₁ _ => ?_)
    exact lowers_mixInto h₁ (getElem?_mono (places_mono hgrown₁.shapes) hk) right hv
      (hcarries.mono hgrown₁)
  cases hm with
  | @object other stereo place hother =>
    rw [Building.connectSides, connectSides]
    split
    · have one : ∀ (side : String) (socket : Nat) {s : State α} {t : Story α},
          Tells rate seed s t → (places s.shapes)[k]? = some ref.id →
            (places s.shapes)[other]? = some stereo.id →
              Tells rate seed (s.mix ref.id socket [.output stereo.id side place])
                (t.send k socket fun ρ => ρ other side) := by
        intro side socket s t h hk hother
        exact h.send (carries_output hother side place) hk socket
      have hp := mem_places.mp (List.mem_of_getElem? hk)
      have hgrown := grown_mix hp left [.output stereo.id "left" place]
      have hplaces := places_mono hgrown.shapes
      refine ⟨(), _, rfl, ?_, hgrown.trans (grown_mix (hp.mono hgrown.shapes) right _), trivial⟩
      exact one "right" right (one "left" left h hk hother) (getElem?_mono hplaces hk)
        (getElem?_mono hplaces hother)
    · exact both
  | socket _ => cases hf
  | signal _ _ hobject _ =>
    rw [Building.connectSides.eq_def, connectSides]
    · split
      · rw [if_neg (Bool.eq_false_iff.mp (hobject _ _ rfl).2)]
        exact both
      · exact both
    · intro object cls hsense
      cases hsense

/-- What goes to the next link of a chain is what is said to go there. -/
theorem lowers_connect (h : Tells rate seed s t) {v target : Value α} {sense tsense : Sense α}
    (hm : Means rate seed s v sense) (hv : ∀ a ∈ v, Readable a)
    (htarget : Means rate seed s target tsense) {type : ValueType}
    (hfits : Fits catalog s.shapes type target) (hin : type.direction.input = true) (span : Span) :
    Lowers rate seed s t (Building.connect v target span) (connect sense tsense)
      fun _ _ _ => True := by
  obtain ⟨f, hf, hcarries⟩ := hm.signal? hv
  rcases hfits.input hin with ⟨ref, place, rfl, _, hp⟩ | ⟨id, index, place, rfl⟩
  · obtain ⟨k, rfl, hk⟩ := htarget.of_placed hp
    rw [Building.connect, connect]
    cases ref.cls.socketIndex? "input" with
    | some input => exact .read hf (lowers_mixInto h hk input hv hcarries)
    | none =>
      cases ref.cls.socketIndex? "left" with
      | none => exact trivial
      | some left =>
        cases ref.cls.socketIndex? "right" with
        | none => exact trivial
        | some right => exact lowers_connectSides h hm hv hk left right
  · obtain ⟨k, rfl, hk⟩ := htarget.of_socket
    rw [Building.connect, connect]
    exact .read hf (lowers_mixInto h hk index hv hcarries)

theorem lowers_buildLinks {links : List Expr}
    (ht : Checking.TypedLinks catalog scope names links names') :
    ∀ (s : State α) (t : Story α) (previous : Value α) (sense : Sense α),
      Agrees catalog scope noName names s → Tells rate seed s t → Means rate seed s previous sense →
        (∀ a ∈ previous, Readable a) →
          Lowers rate seed s t (buildLinks catalog scope previous links)
            (evalLinks catalog scope sense links) fun _ _ s' => Agrees catalog scope noName names' s' := by
  have step {s : State α} {t : Story α} {previous v : Value α} {sense next : Sense α}
      {names : Names} {type : ValueType} (htells : Tells rate seed s t)
      (hmeans : Means rate seed s previous sense) (hread : ∀ a ∈ previous, Readable a)
      (hmeans' : Means rate seed s v next) (h : Agrees catalog scope noName names s)
      (hfits : Fits catalog s.shapes type v) (hin : type.direction.input = true) (span : Span) :
      Lowers rate seed s t (Building.connect previous v span) (connect sense next)
        fun _ _ s' => True ∧ Agrees catalog scope noName names s' ∧ True := by
    have hsound : Sound catalog scope noName [] names s (Building.connect previous v span) Any :=
      sound_connect h (.inl hread) (.inl hfits) hin span
    exact Lowers.sound hsound (lowers_connect htells hmeans hread hmeans' hfits hin span)
  induction ht with
  | last ht hin =>
    intro s t previous sense h htells hmeans hread
    refine (lowers_buildExpr ht s t h htells).bind fun v next s₁ t₁ htells₁ hgrown₁ hv => ?_
    obtain ⟨hmeans₁, h₁, hfits⟩ := hv
    have hstep := step htells₁ (hmeans.mono hgrown₁) hread hmeans₁ h₁ hfits hin
    exact (hstep _).bind fun _ _ s₂ t₂ htells₂ _ hpost => .pure htells₂ hpost.2.1
  | step ht hin hout _ ih =>
    intro s t previous sense h htells hmeans hread
    refine (lowers_buildExpr ht s t h htells).bind fun v next s₁ t₁ htells₁ hgrown₁ hv => ?_
    obtain ⟨hmeans₁, h₁, hfits⟩ := hv
    have hstep := step htells₁ (hmeans.mono hgrown₁) hread hmeans₁ h₁ hfits hin
    refine (hstep _).bind fun _ _ s₂ t₂ htells₂ hgrown₂ hpost => ?_
    exact ih s₂ t₂ v next hpost.2.1 htells₂ (hmeans₁.mono hgrown₂) (hfits.output hout)

theorem lowers_buildStatement {statement : Statement}
    (ht : Checking.TypedStatement catalog scope names statement names')
    (h : Agrees catalog scope noName names s) (htells : Tells rate seed s t) :
    Lowers rate seed s t (buildStatement catalog scope statement)
      (evalStatement catalog scope statement) fun _ _ s' => Agrees catalog scope noName names' s' := by
  have hsound := sound_buildStatement standard_operable Library.standard_regular ht h
  suffices Lowers rate seed s t (buildStatement catalog scope statement)
      (evalStatement catalog scope statement) fun _ _ _ => True from
    (Lowers.sound hsound this).imp fun _ _ _ hpost => hpost.2.1
  cases ht with
  | @definition _ name value span type ht _ =>
    rw [buildStatement, evalStatement]
    refine (lowers_buildExpr ht s t h htells).bind fun v sense s₁ t₁ htells₁ _ hv => ?_
    exact (lowers_define htells₁ hv.1 name).imp fun _ _ _ _ => trivial
  | @construction _ c type ht =>
    have hc : Lowers rate seed s t _ _ _ := lowers_buildExpr ht s t h htells
    rw [buildExpr, evalExpr] at hc
    rw [buildStatement, evalStatement]
    exact hc.bind fun _ _ _ _ htells₁ _ _ => .pure htells₁ trivial
  | chain ht hout hlinks =>
    rw [buildStatement, evalStatement]
    refine (lowers_buildExpr ht s t h htells).bind fun v sense s₁ t₁ htells₁ _ hv => ?_
    obtain ⟨hmeans, h₁, hfits⟩ := hv
    refine (lowers_buildLinks hlinks s₁ t₁ v sense h₁ htells₁ hmeans (hfits.output hout)).imp ?_
    exact fun _ _ _ _ => trivial

end Steps
end Patchbay.Meaning
