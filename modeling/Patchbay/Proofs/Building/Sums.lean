import Mathlib.Data.List.Permutation
import Patchbay.Checking.Run
import Patchbay.Program.Reader
import Patchbay.Proofs.Building.Built
import Patchbay.Proofs.Building.Frame
import Patchbay.Token.Scan

/-! Sums in chains: to send a sum to a link is to send its parts there, one after the other. -/
namespace Patchbay.Building
variable {α β γ : Type}

section Runs
variable {s s' : State α}

theorem run_bind_ok {w : Work α β} {next : β → Work α γ} {value : γ} :
    (w >>= next).run s = (.ok value, s') ↔
      ∃ middle t, w.run s = (.ok middle, t) ∧ (next middle).run t = (.ok value, s') := by
  constructor
  · intro h
    have hleads := leads_of_run h
    rw [leads_bind, Leads] at hleads
    rcases hw : w.run s with ⟨fault | middle, t⟩
    · rw [hw] at hleads
      cases hleads.1
    · rw [hw] at hleads
      exact ⟨middle, t, rfl, run_eq hleads⟩
  · rintro ⟨middle, t, hw, hn⟩
    refine run_eq ?_
    rw [leads_bind, Leads, hw]
    exact leads_of_run hn

theorem run_mixInto_ok {object socket : Nat} {value : Value α} :
    (mixInto object socket value).run s = (.ok (), s') ↔
      (gather value).2 = none ∧ s' = s.mix object socket (gather value).1 := by
  constructor
  · intro h
    have hleads := leads_of_run h
    rw [leads_mixInto] at hleads
    generalize gather value = gathered at hleads
    obtain ⟨more, _ | fault⟩ := gathered
    · exact ⟨rfl, hleads.2.symm⟩
    · cases hleads.1
  · rintro ⟨hnone, rfl⟩
    refine run_eq ?_
    rw [leads_mixInto]
    generalize gather value = gathered at hnone
    obtain ⟨more, _⟩ := gathered
    cases hnone
    exact ⟨rfl, rfl⟩

end Runs

/-- The sockets that a link fills: the input of an object or both its sides, or a single socket. -/
def landing? : Value α → Option (List (Nat × Nat))
  | [.object ref _] =>
    match ref.cls.socketIndex? "input", ref.cls.socketIndex? "left",
      ref.cls.socketIndex? "right" with
    | some input, _, _ => some [(ref.id, input)]
    | none, some left, some right => some [(ref.id, left), (ref.id, right)]
    | _, _, _ => none
  | [.socket id index _] => some [(id, index)]
  | _ => none

/-- Whether a link takes a whole stereo object apart, each side to its own. -/
def takesApart : Value α → Value α → Bool
  | [.object source _], [.object target _] =>
    source.cls.isStereoSource && (target.cls.socketIndex? "input").isNone
  | _, _ => false

/-- Add the same summands to many sockets. -/
def State.mixAll (s : State α) (sockets : List (Nat × Nat)) (more : List (Contribution α)) :
    State α := sockets.foldl (fun s socket => s.mix socket.1 socket.2 more) s

section Landing
variable {s s' : State α}

/-- What is not taken apart goes to all sockets of a link alike. -/
theorem run_connect_ok {source target : Value α} (h : takesApart source target = false)
    {span : Span} :
    (connect source target span).run s = (.ok (), s') ↔
      ∃ sockets, landing? target = some sockets ∧ (gather source).2 = none ∧
        s' = s.mixAll sockets (gather source).1 := by
  have hone : ∀ object socket : Nat, (mixInto object socket source).run s = (.ok (), s') ↔
      ∃ sockets, some [(object, socket)] = some sockets ∧ (gather source).2 = none ∧
        s' = s.mixAll sockets (gather source).1 := by
    intro object socket
    rw [run_mixInto_ok]
    simp [State.mixAll]
  have hboth : ∀ object left right : Nat,
      (do mixInto object left source; mixInto object right source : Work α Unit).run s =
        (.ok (), s') ↔
      ∃ sockets, some [(object, left), (object, right)] = some sockets ∧
        (gather source).2 = none ∧ s' = s.mixAll sockets (gather source).1 := by
    intro object left right
    rw [run_bind_ok]
    constructor
    · rintro ⟨_, t, hfirst, hsecond⟩
      obtain ⟨hnone, rfl⟩ := run_mixInto_ok.mp hfirst
      obtain ⟨_, rfl⟩ := run_mixInto_ok.mp hsecond
      exact ⟨_, rfl, hnone, rfl⟩
    · rintro ⟨_, hsockets, hnone, rfl⟩
      cases hsockets
      exact ⟨(), _, run_mixInto_ok.mpr ⟨hnone, rfl⟩, run_mixInto_ok.mpr ⟨hnone, rfl⟩⟩
  have hfail : ∀ fault place, (fail fault place : Work α Unit).run s = (.ok (), s') ↔
      ∃ sockets, none = some sockets ∧ (gather source).2 = none ∧
        s' = s.mixAll sockets (gather source).1 := by
    intro fault place
    constructor
    · intro hrun
      cases hrun
    · rintro ⟨_, hnone, _⟩
      cases hnone
  rw [connect.eq_def]
  split
  · next ref place =>
    split
    · next input hinput =>
      have hlanding : landing? [Atom.object (α := α) ref place] = some [(ref.id, input)] := by
        simp [landing?, hinput]
      rw [hlanding]
      exact hone _ _
    · next left right hinput hleft hright =>
      have hlanding : landing? [Atom.object (α := α) ref place] =
          some [(ref.id, left), (ref.id, right)] := by
        simp [landing?, hinput, hleft, hright]
      rw [hlanding, connectSides.eq_def]
      split
      · next whole _ =>
        have hwhole : whole.cls.isStereoSource = false := by
          simpa [takesApart, hinput] using h
        rw [if_neg (by simp [hwhole])]
        exact hboth _ _ _
      · exact hboth _ _ _
    · next hnotInput hnotSides =>
      have hlanding : landing? [Atom.object (α := α) ref place] = none := by
        rw [landing?]
        split
        · next hinput => exact absurd hinput (hnotInput _)
        · next hinput hleft hright => exact (hnotSides _ _ hinput hleft hright).elim
        · rfl
      rw [hlanding]
      exact hfail _ _
  · exact hone _ _
  · next hnotObject hnotSocket =>
    have hlanding : landing? target = none := by
      rw [landing?.eq_def]
      split
      · exact (hnotObject _ _ rfl).elim
      · exact (hnotSocket _ _ _ rfl).elim
      · rfl
    rw [hlanding]
    exact hfail _ _

omit s s' in
/-- The sockets of a link are those of an object that is there, each once. -/
theorem landing?_valid {target : Value α} {sockets : List (Nat × Nat)}
    (h : landing? target = some sockets) {cs : List UnitClass} (ht : ValidValue cs target)
    (hsides : ∀ c ∈ cs, ∀ i, c.socketIndex? "left" = some i → c.socketIndex? "right" ≠ some i) :
    sockets.Nodup ∧ ∀ socket ∈ sockets, socket.1 < cs.length := by
  rw [landing?.eq_def] at h
  split at h
  · next ref place =>
    have hthere : cs[ref.id]? = some ref.cls := ht _ List.mem_cons_self
    have hlt := (List.getElem?_eq_some_iff.mp hthere).1
    split at h
    · cases h
      simpa using hlt
    · next left right _ hleft hright =>
      cases h
      have hne : left ≠ right := by
        rintro rfl
        exact hsides _ (List.mem_of_getElem? hthere) left hleft hright
      simp [hne, hlt]
    · cases h
  · next id index place =>
    obtain ⟨c, hthere, _⟩ : ∃ c, cs[id]? = some c ∧ index < c.sockets.length :=
      ht _ List.mem_cons_self
    cases h
    simpa using (List.getElem?_eq_some_iff.mp hthere).1
  · cases h

end Landing

section Mixing
variable {first second : List (Contribution α)}

theorem mix_comm (s : State α) {a b : Nat × Nat} (hne : a ≠ b) :
    (s.mix a.1 a.2 first).mix b.1 b.2 second = (s.mix b.1 b.2 second).mix a.1 a.2 first := by
  simp only [State.mix]
  congr 1
  by_cases hobject : a.1 = b.1
  · have hsocket : a.2 ≠ b.2 := fun heq => hne (Prod.ext hobject heq)
    rw [hobject, List.modify_modify_eq, List.modify_modify_eq]
    congr 1
    funext d
    simp only [Function.comp_apply]
    rw [List.modify_modify_ne _ _ _ hsocket]
  · rw [List.modify_modify_ne _ _ _ hobject]

theorem mix_mixAll (s : State α) {socket : Nat × Nat} {sockets : List (Nat × Nat)}
    (hnot : socket ∉ sockets) :
    (s.mix socket.1 socket.2 first).mixAll sockets second =
      (s.mixAll sockets second).mix socket.1 socket.2 first := by
  induction sockets generalizing s with
  | nil => rfl
  | cons other rest ih =>
    obtain ⟨hne, hrest⟩ := not_or.mp (mt List.mem_cons.mpr hnot)
    rw [State.mixAll, List.foldl_cons, mix_comm s hne]
    exact ih _ hrest

/-- Summands that come later may as well come together. -/
theorem mixAll_mixAll (s : State α) {sockets : List (Nat × Nat)} (hn : sockets.Nodup) :
    (s.mixAll sockets first).mixAll sockets second = s.mixAll sockets (first ++ second) := by
  induction sockets generalizing s with
  | nil => rfl
  | cons socket rest ih =>
    obtain ⟨hnot, hrest⟩ := List.nodup_cons.mp hn
    have hswap : ((s.mix socket.1 socket.2 first).mixAll rest first).mix socket.1 socket.2 second =
        ((s.mix socket.1 socket.2 first).mix socket.1 socket.2 second).mixAll rest first :=
      (mix_mixAll _ hnot).symm
    calc (s.mixAll (socket :: rest) first).mixAll (socket :: rest) second
        = (((s.mix socket.1 socket.2 first).mixAll rest first).mix socket.1 socket.2
            second).mixAll rest second := rfl
      _ = (((s.mix socket.1 socket.2 first).mix socket.1 socket.2 second).mixAll rest
            first).mixAll rest second := by rw [hswap]
      _ = (s.mix socket.1 socket.2 (first ++ second)).mixAll rest (first ++ second) := by
        rw [mix_mix, ih _ hrest]

theorem length_mixAll (s : State α) (sockets : List (Nat × Nat)) (more : List (Contribution α)) :
    (s.mixAll sockets more).objects.length = s.objects.length := by
  induction sockets generalizing s with
  | nil => rfl
  | cons socket rest ih => exact (ih _).trans (s.length_objects_mix _ _ _)

theorem alike_mixAll (s : State α) (sockets : List (Nat × Nat)) (more : List (Contribution α)) :
    s.Alike (s.mixAll sockets more) := by
  refine ⟨(length_mixAll s sockets more).symm, ?_, ?_⟩
  · induction sockets generalizing s with
    | nil => rfl
    | cons socket rest ih => exact ih (s.mix socket.1 socket.2 more)
  · induction sockets generalizing s with
    | nil => rfl
    | cons socket rest ih => exact ih (s.mix socket.1 socket.2 more)

/-- Older objects may be given summands before changes or behind them. -/
theorem mixAll_changeAll {r : Reach} {changes : List (Change α)}
    (h : ∀ c ∈ changes, c.Permitted r) {sockets : List (Nat × Nat)} {t : State α}
    (hsockets : ∀ socket ∈ sockets, socket.1 < r.first ∧ socket.1 < t.objects.length) :
    (t.mixAll sockets first).changeAll changes = (t.changeAll changes).mixAll sockets first := by
  induction sockets generalizing t with
  | nil => rfl
  | cons socket rest ih =>
    obtain ⟨hobject, hlt⟩ := hsockets socket List.mem_cons_self
    have hrest := ih (t := t.mix socket.1 socket.2 first) fun other hm => by
      simpa using hsockets other (List.mem_cons_of_mem _ hm)
    calc ((t.mix socket.1 socket.2 first).mixAll rest first).changeAll changes
        = ((t.mix socket.1 socket.2 first).changeAll changes).mixAll rest first := hrest
      _ = ((t.changeAll changes).mix socket.1 socket.2 first).mixAll rest first := by
        rw [mix_changeAll h hobject hlt]

theorem gather_append_none {v w : Value α} :
    (gather (v ++ w)).2 = none ↔ (gather v).2 = none ∧ (gather w).2 = none := by
  induction v with
  | nil => simp [gather]
  | cons a rest ih =>
    rw [List.cons_append, gather, gather]
    cases contributions a with
    | error fault => simp
    | ok more => exact ih

theorem gather_append_of_none {v w : Value α} (hv : (gather v).2 = none) :
    (gather (v ++ w)).1 = (gather v).1 ++ (gather w).1 := by
  induction v with
  | nil => rfl
  | cons a rest ih =>
    rw [gather] at hv
    rw [List.cons_append, gather, gather]
    cases hc : contributions a with
    | error fault =>
      rw [hc] at hv
      cases hv
    | ok more =>
      rw [hc] at hv
      dsimp only
      rw [ih hv, List.append_assoc]

theorem takesApart_append {v w target : Value α} (hv : takesApart v target = false)
    (hw : takesApart w target = false) : takesApart (v ++ w) target = false := by
  rcases v with _ | ⟨a, _ | ⟨b, rest⟩⟩
  · exact hw
  · cases w with
    | nil => exact hv
    | cons b rest => cases a <;> rfl
  · cases a <;> rfl

end Mixing
end Patchbay.Building

namespace Patchbay

/-- The name that a link to an object or one of its sockets looks up. -/
def Expr.targetName? : Expr → Option String
  | .name ident => some ident.name
  | .socket object _ _ => some object.name
  | .error _ | .number _ _ _ | .unary _ _ _ | .binary _ _ _ _ | .mapping _ _ _ _ _
  | .construction _ | .output _ _ _ => none

/-- No class has the same socket for both sides. -/
def Catalog.SidesApart (k : Catalog) : Prop :=
  ∀ name c, k.resolve? name = some c →
    ∀ i, c.socketIndex? "left" = some i → c.socketIndex? "right" ≠ some i

theorem Library.standard_sidesApart : Library.standard.catalog.SidesApart := by
  have all : ∀ c ∈ Library.standard.catalog.classes.toList,
      (c.socketIndex? "left").isNone ∨ c.socketIndex? "left" ≠ c.socketIndex? "right" := by
    decide
  intro name c h i hleft hright
  have hc := all c (Catalog.mem_of_resolve? h)
  simp [hleft, hright] at hc

end Patchbay

namespace Patchbay.Building
variable {α : Type} [Arithmetic α] {catalog : Catalog} {scope : Scope} {s s' : State α}

theorem run_sum_ok {a b : Expr} {span : Span} {value : Value α} :
    (buildExpr catalog scope (.binary .add a b span)).run s = (.ok value, s') ↔
      ∃ v s₁ w, (buildExpr catalog scope a).run s = (.ok v, s₁) ∧
        (buildExpr catalog scope b).run s₁ = (.ok w, s') ∧ v ++ w = value := by
  rw [buildExpr, run_bind_ok]
  constructor
  · rintro ⟨v, s₁, hv, h⟩
    obtain ⟨w, s₂, hw, hp⟩ := run_bind_ok.mp h
    cases hp
    exact ⟨v, s₁, w, hv, hw, rfl⟩
  · rintro ⟨v, s₁, w, hv, hw, rfl⟩
    exact ⟨v, s₁, hv, run_bind_ok.mpr ⟨w, s', hw, rfl⟩⟩

/-- A line that sends a value to a single link. -/
theorem run_chain_ok {source target : Expr} {place : Span} :
    (buildStatement catalog scope (.chain source [] target place)).run s = (.ok (), s') ↔
      ∃ v s₁ x s₂, (buildExpr catalog scope source).run s = (.ok v, s₁) ∧
        (buildExpr catalog scope target).run s₁ = (.ok x, s₂) ∧
          (connect v x target.span).run s₂ = (.ok (), s') := by
  rw [buildStatement, run_bind_ok]
  constructor
  · rintro ⟨v, s₁, hv, h⟩
    obtain ⟨x, s₂, hx, h⟩ := run_bind_ok.mp h
    obtain ⟨_, s₃, hconnect, hend⟩ := run_bind_ok.mp h
    cases hend
    exact ⟨v, s₁, x, s₂, hv, hx, hconnect⟩
  · rintro ⟨v, s₁, x, s₂, hv, hx, hconnect⟩
    refine ⟨v, s₁, hv, run_bind_ok.mpr ⟨x, s₂, hx, ?_⟩⟩
    exact run_bind_ok.mpr ⟨(), s', hconnect, rfl⟩

/-- A link to a name changes nothing, and is the same where the name stands for the same. -/
theorem run_target {t : Expr} {name : String} (ht : t.targetName? = some name) {u : State α}
    (hname : u.find? scope name = s.find? scope name) {value : Value α}
    (h : (buildExpr catalog scope t).run s = (.ok value, s')) :
    s' = s ∧ (buildExpr catalog scope t).run u = (.ok value, u) := by
  cases t with
  | name ident =>
    cases ht
    rw [buildExpr] at h ⊢
    have hleads := leads_of_run h
    rw [leads_find] at hleads
    split at hleads
    · next found hfound =>
      obtain ⟨hvalue, rfl⟩ := hleads
      cases hvalue
      refine ⟨rfl, run_eq ?_⟩
      rw [leads_find, hname, hfound]
      exact ⟨rfl, rfl⟩
    · cases hleads.1
  | socket object socket span =>
    cases ht
    rw [buildExpr] at h ⊢
    obtain ⟨ref, t, hfind, h⟩ := run_bind_ok.mp h
    have hleads := leads_of_run hfind
    rw [leads_findObject] at hleads
    split at hleads
    · next _ place hfound =>
      obtain ⟨href, rfl⟩ := hleads
      cases href
      have hfind' : (findObject scope .socket object).run u = (.ok ref, u) := by
        refine run_eq ?_
        rw [leads_findObject, hname, hfound]
        exact ⟨rfl, rfl⟩
      split at h
      · next index hindex =>
        cases h
        refine ⟨rfl, run_bind_ok.mpr ⟨ref, u, hfind', ?_⟩⟩
        rw [hindex]
        rfl
      · cases h
    · cases hleads.1
    · cases hleads.1
  | _ => cases ht

/-- Whether a summand is a whole stereo object that a link of its own would take apart. -/
def takesSummandApart (catalog : Catalog) (scope : Scope) (s : State α) (a b target : Expr) :
    Bool :=
  let work : Work α Bool := do
    let v ← buildExpr catalog scope a
    let w ← buildExpr catalog scope b
    let x ← buildExpr catalog scope target
    return takesApart v x || takesApart w x
  match work.run s with
  | (.ok apart, _) => apart
  | (.error _, _) => false

theorem takesSummandApart_eq {a b target : Expr} {v w x : Value α} {s₁ s₂ s₃ : State α}
    (hv : (buildExpr catalog scope a).run s = (.ok v, s₁))
    (hw : (buildExpr catalog scope b).run s₁ = (.ok w, s₂))
    (hx : (buildExpr catalog scope target).run s₂ = (.ok x, s₃)) :
    takesSummandApart catalog scope s a b target = (takesApart v x || takesApart w x) := by
  have hrun : (do
      let v ← buildExpr catalog scope a
      let w ← buildExpr catalog scope b
      let x ← buildExpr catalog scope target
      return takesApart v x || takesApart w x : Work α Bool).run s =
        (.ok (takesApart v x || takesApart w x), s₃) :=
    run_bind_ok.mpr ⟨v, s₁, hv, run_bind_ok.mpr ⟨w, s₂, hw, run_bind_ok.mpr ⟨x, s₃, hx, rfl⟩⟩⟩
  rw [takesSummandApart, hrun]

theorem valid_of_run (hk : catalog.Regular) (h : Valid catalog s) {e : Expr} {v : Value α}
    (hrun : (buildExpr catalog scope e).run s = (.ok v, s')) :
    Valid catalog s' ∧ ValidValue s'.classes v := by
  have hkeeps := keeps_buildExpr h hk scope e
  rw [Keeps, Leads, hrun] at hkeeps
  exact ⟨hkeeps.1.valid, hkeeps.2⟩

/-- Where the sum of two values goes, the second may as well go behind the first, if the name of the
target stands for the same before the second and behind it. -/
theorem run_chain_sum (hk : catalog.Regular) (hapart : catalog.SidesApart)
    (h : Valid catalog s) {a b t : Expr} {name : String} (ht : t.targetName? = some name)
    (hb : name ∉ b.bound) (hsides : takesSummandApart catalog scope s a b t = false)
    {span place : Span}
    (hsum : (buildStatement catalog scope (.chain (.binary .add a b span) [] t place)).run s =
      (.ok (), s')) (first second : Span) :
    ∃ u, (buildStatement catalog scope (.chain a [] t first)).run s = (.ok (), u) ∧
      (buildStatement catalog scope (.chain b [] t second)).run u = (.ok (), s') := by
  obtain ⟨sum, s₂, x, s₃, hsum, hx, hconnect⟩ := run_chain_ok.mp hsum
  obtain ⟨v, s₁, w, hv, hw, rfl⟩ := run_sum_ok.mp hsum
  rw [takesSummandApart_eq hv hw hx, Bool.or_eq_false_iff] at hsides
  -- The second summand makes the same changes, whether or not the first has been sent off.
  have hbuild := (permitting (α := α) catalog
    ⟨scope, (· ∈ b.bound), s₁.objects.length⟩).acts_buildExpr b s₁ fun _ hm _ => hm
  obtain ⟨result, changes, hacts, hpermitted, _⟩ := hbuild (Nat.le_refl _)
  obtain ⟨rfl, rfl⟩ := Prod.mk.inj (hw.symm.trans (hacts s₁ (.refl s₁)))
  obtain ⟨rfl, hx₁⟩ := run_target ht (find?_changeAll hpermitted hb s₁ scope).symm hx
  have h₁ := (valid_of_run hk h hv).1
  obtain ⟨sockets, hlanding, hnone, rfl⟩ :=
    (run_connect_ok (takesApart_append hsides.1 hsides.2)).mp hconnect
  obtain ⟨hnodup, hthere⟩ := landing?_valid hlanding (valid_of_run hk h₁ hx₁).2
    fun c hc => hapart _ _ (h₁.classes c hc)
  rw [State.classes, List.length_map, State.length_shapes] at hthere
  obtain ⟨hnone₁, hnone₂⟩ := gather_append_none.mp hnone
  have hlater : (s₁.mixAll sockets (gather v).1).changeAll changes =
      (s₁.changeAll changes).mixAll sockets (gather v).1 :=
    mixAll_changeAll hpermitted fun socket hm => ⟨hthere socket hm, hthere socket hm⟩
  have hw₁ := hacts _ (alike_mixAll s₁ sockets (gather v).1)
  rw [hlater] at hw₁
  have hname := (alike_mixAll (s₁.changeAll changes) sockets (gather v).1).find? scope name
  refine ⟨s₁.mixAll sockets (gather v).1, ?_, ?_⟩
  · refine run_chain_ok.mpr ⟨v, s₁, x, s₁, hv, hx₁, ?_⟩
    exact (run_connect_ok hsides.1).mpr ⟨sockets, hlanding, hnone₁, rfl⟩
  · refine run_chain_ok.mpr ⟨w, _, x, _, hw₁, (run_target ht hname.symm hx).2, ?_⟩
    refine (run_connect_ok hsides.2).mpr ⟨sockets, hlanding, hnone₂, ?_⟩
    rw [mixAll_mixAll _ hnodup, ← gather_append_of_none hnone₁]

/-- A statement that adds no fault has ended well. -/
theorem run_of_faults {statement : Statement}
    (h : (s.after (buildStatement catalog scope statement)).faults = s.faults) :
    (buildStatement catalog scope statement).run s =
      (.ok (), s.after (buildStatement catalog scope statement)) := by
  have hkept := (stable_others scope).moves_buildStatement catalog statement s
  rw [Leads] at hkept
  rw [State.after] at h ⊢
  rcases hrun : (buildStatement catalog scope statement).run s with ⟨fault | _, s'⟩
  · rw [hrun] at h hkept
    have hlength := congrArg List.length (h.trans hkept.2.symm)
    simp at hlength
  · rfl

theorem built_append (lines more : List Line) :
    (built ⟨lines ++ more⟩ : State α) =
      buildLines Library.standard.catalog (built ⟨lines⟩) more := by
  rw [built_eq, built_eq, buildLines, List.foldl_append]
  rfl

/-- A line that sends a sum to a link builds what two lines build that send the parts of the sum
there, if the line has no fault, its second summand has no object with the name of the target, and
neither summand is a whole stereo object for the target to take apart. -/
theorem built_sum {lines : List Line} {scope : Scope} {a b t : Expr} {name : String}
    {span place : Span} (ht : t.targetName? = some name) (hb : name ∉ b.bound)
    (hfaults : (built ⟨lines ++ [⟨scope, .chain (.binary .add a b span) [] t place⟩]⟩ :
      State α).faults = (built ⟨lines⟩ : State α).faults)
    (hsides : takesSummandApart Library.standard.catalog scope (built ⟨lines⟩ : State α) a b t =
      false) (first second : Span) :
    (built ⟨lines ++ [⟨scope, .chain (.binary .add a b span) [] t place⟩]⟩ : State α) =
      built ⟨lines ++ [⟨scope, .chain a [] t first⟩, ⟨scope, .chain b [] t second⟩]⟩ := by
  have hvalid : Valid Library.standard.catalog (built ⟨lines⟩ : State α) := (built_extends _).1
  rw [built_append] at hfaults
  obtain ⟨u, hfirst, hsecond⟩ := run_chain_sum Library.standard_regular Library.standard_sidesApart
    hvalid ht hb hsides (run_of_faults hfaults) first second
  rw [built_append, built_append]
  simp only [buildLines, List.foldl_cons, List.foldl_nil]
  have hmiddle : (built ⟨lines⟩ : State α).after
      (buildStatement Library.standard.catalog scope (.chain a [] t first)) = u := by
    rw [State.after, hfirst]
  have hlast : u.after (buildStatement Library.standard.catalog scope (.chain b [] t second)) =
      (built ⟨lines⟩ : State α).after (buildStatement Library.standard.catalog scope
        (.chain (.binary .add a b span) [] t place)) := by
    rw [State.after, hsecond]
  rw [hmiddle, hlast]

section Mixers

/-- A mixer for all voices. -/
def sharedMixer : Line :=
  ⟨.global, .construction ⟨⟨"Mix", ⟨0, 3⟩⟩, some ⟨"m", ⟨4, 5⟩⟩, [], ⟨0, 7⟩⟩⟩

def gateInput : Expr := .name ⟨"gate", ⟨19, 23⟩⟩

/-- A mixer of each voice, which reads the shared one. -/
def voiceMixer : Expr :=
  .construction ⟨⟨"Mix", ⟨26, 29⟩⟩, some ⟨"k", ⟨30, 31⟩⟩, [⟨none, .name ⟨"m", ⟨32, 33⟩⟩⟩], ⟨26, 34⟩⟩

def finalOutput : Expr := .name ⟨"output", ⟨38, 44⟩⟩

theorem built_sum_mixers :
    ("output" ∉ voiceMixer.bound ∧
      (built ⟨[sharedMixer] ++ [⟨.voice, .chain (.binary .add gateInput voiceMixer ⟨19, 34⟩) []
        finalOutput ⟨19, 44⟩⟩]⟩ : State Float).faults =
          (built ⟨[sharedMixer]⟩ : State Float).faults ∧
      takesSummandApart Library.standard.catalog .voice (built ⟨[sharedMixer]⟩ : State Float)
        gateInput voiceMixer finalOutput = false) ∧
    (built ⟨[sharedMixer] ++ [⟨.voice, .chain (.binary .add gateInput voiceMixer ⟨19, 34⟩) []
      finalOutput ⟨19, 44⟩⟩]⟩ : State Float) =
        built ⟨[sharedMixer] ++ [⟨.voice, .chain gateInput [] finalOutput ⟨19, 44⟩⟩,
          ⟨.voice, .chain voiceMixer [] finalOutput ⟨26, 44⟩⟩]⟩ := by
  have hb : "output" ∉ voiceMixer.bound := by decide
  have hfaults : (built ⟨[sharedMixer] ++ [⟨.voice, .chain (.binary .add gateInput voiceMixer
      ⟨19, 34⟩) [] finalOutput ⟨19, 44⟩⟩]⟩ : State Float).faults =
        (built ⟨[sharedMixer]⟩ : State Float).faults := by
    rw [built_eq, built_eq]
    rfl
  have hsides : takesSummandApart Library.standard.catalog .voice
      (built ⟨[sharedMixer]⟩ : State Float) gateInput voiceMixer finalOutput = false := by
    rw [built_eq]
    rfl
  exact ⟨⟨hb, hfaults, hsides⟩, built_sum rfl hb hfaults hsides ⟨19, 44⟩ ⟨26, 44⟩⟩

end Mixers

/-- The summands of each socket of each object, wherever in the text they come from. -/
def State.summands (s : State α) : List (List (List (Contribution α))) :=
  s.objects.map fun d => d.mixes.map (·.map Contribution.stripSpan)

/-- How many summands each socket of each object has. -/
def State.counts (s : State α) : List (List Nat) := s.objects.map (·.mixes.map List.length)

omit [Arithmetic α] in
theorem summands_ne {s t : State α} (h : s.counts ≠ t.counts) : s.summands ≠ t.summands := by
  have hcounts : ∀ u : State α, u.counts = u.summands.map (·.map List.length) := by
    intro u
    simp [State.counts, State.summands, Function.comp_def]
  intro hsame
  rw [hcounts, hcounts, hsame] at h
  exact h rfl

/-- A text that can be read and passes the check. -/
def Passes (source : String) : Prop :=
  (Program.ofTokens (Token.scan source)).faults = [] ∧
    (Checking.check Library.standard.catalog
      (Program.ofTokens (Token.scan source)).program).faults = []

/-- Both texts pass, but they fill sockets differently. -/
def Differ (sum parts : String) : Prop :=
  (Passes sum ∧ Passes parts) ∧
    (built (Program.ofTokens (Token.scan sum)).program : State Float).summands ≠
      (built (Program.ofTokens (Token.scan parts)).program : State Float).summands

theorem differ_of_ofTokens {sum parts : String} {together apart : List Line}
    (hsum : Program.ofTokens (Token.scan sum) = ⟨⟨together⟩, []⟩)
    (hparts : Program.ofTokens (Token.scan parts) = ⟨⟨apart⟩, []⟩)
    (htogether : (Checking.check Library.standard.catalog ⟨together⟩).faults = [])
    (hapart : (Checking.check Library.standard.catalog ⟨apart⟩).faults = [])
    (h : (built ⟨together⟩ : State Float).counts ≠ (built ⟨apart⟩ : State Float).counts) :
    Differ sum parts := by
  rw [Differ, Passes, Passes, hsum, hparts]
  exact ⟨⟨⟨rfl, htogether⟩, rfl, hapart⟩, summands_ne h⟩

/-- The first part goes to the shared mixer, unless the target is looked up behind both. -/
private theorem differ_shadowed :
    Differ "Mix m()\nstartvoice\ngate + Mix m() => m\nendvoice"
      "Mix m()\nstartvoice\ngate => m\nMix m() => m\nendvoice" := by
  have hsum : Program.ofTokens (Token.scan "Mix m()\nstartvoice\ngate + Mix m() => m\nendvoice") =
      ⟨⟨[sharedMixer, ⟨.voice, .chain (.binary .add gateInput
          (.construction ⟨⟨"Mix", ⟨26, 29⟩⟩, some ⟨"m", ⟨30, 31⟩⟩, [], ⟨26, 33⟩⟩) ⟨19, 33⟩)
            [] (.name ⟨"m", ⟨37, 38⟩⟩) ⟨19, 38⟩⟩]⟩, []⟩ := by
    cbv
  have hparts : Program.ofTokens (Token.scan
      "Mix m()\nstartvoice\ngate => m\nMix m() => m\nendvoice") =
      ⟨⟨[sharedMixer, ⟨.voice, .chain gateInput [] (.name ⟨"m", ⟨27, 28⟩⟩) ⟨19, 28⟩⟩,
          ⟨.voice, .chain (.construction ⟨⟨"Mix", ⟨29, 32⟩⟩, some ⟨"m", ⟨33, 34⟩⟩, [], ⟨29, 36⟩⟩)
            [] (.name ⟨"m", ⟨40, 41⟩⟩) ⟨29, 41⟩⟩]⟩, []⟩ := by
    cbv
  refine differ_of_ofTokens hsum hparts rfl rfl ?_
  rw [built_eq, built_eq]
  decide

/-- The knob is refused, and with it the line it stands in. -/
private theorem differ_refused :
    Differ "startvoice\ngate + Knob k() => output\nendvoice"
      "startvoice\ngate => output\nKnob k() => output\nendvoice" := by
  have hsum : Program.ofTokens (Token.scan "startvoice\ngate + Knob k() => output\nendvoice") =
      ⟨⟨[⟨.voice, .chain (.binary .add (.name ⟨"gate", ⟨11, 15⟩⟩)
          (.construction ⟨⟨"Knob", ⟨18, 22⟩⟩, some ⟨"k", ⟨23, 24⟩⟩, [], ⟨18, 26⟩⟩) ⟨11, 26⟩)
            [] (.name ⟨"output", ⟨30, 36⟩⟩) ⟨11, 36⟩⟩]⟩, []⟩ := by
    cbv
  have hparts : Program.ofTokens (Token.scan
      "startvoice\ngate => output\nKnob k() => output\nendvoice") =
      ⟨⟨[⟨.voice, .chain (.name ⟨"gate", ⟨11, 15⟩⟩) [] (.name ⟨"output", ⟨19, 25⟩⟩) ⟨11, 25⟩⟩,
          ⟨.voice, .chain (.construction ⟨⟨"Knob", ⟨26, 30⟩⟩, some ⟨"k", ⟨31, 32⟩⟩, [], ⟨26, 34⟩⟩)
            [] (.name ⟨"output", ⟨38, 44⟩⟩) ⟨26, 44⟩⟩]⟩, []⟩ := by
    cbv
  refine differ_of_ofTokens hsum hparts rfl rfl ?_
  rw [built_eq, built_eq]
  decide

/-- On its own each side goes to its own, in a sum both go to both. -/
private theorem differ_sides :
    Differ "StereoMix s()\ns + gate => output" "StereoMix s()\ns => output\ngate => output" := by
  have hsum : Program.ofTokens (Token.scan "StereoMix s()\ns + gate => output") =
      ⟨⟨[⟨.global, .construction ⟨⟨"StereoMix", ⟨0, 9⟩⟩, some ⟨"s", ⟨10, 11⟩⟩, [], ⟨0, 13⟩⟩⟩,
          ⟨.global, .chain (.binary .add (.name ⟨"s", ⟨14, 15⟩⟩) (.name ⟨"gate", ⟨18, 22⟩⟩)
            ⟨14, 22⟩) [] (.name ⟨"output", ⟨26, 32⟩⟩) ⟨14, 32⟩⟩]⟩, []⟩ := by
    cbv
  have hparts : Program.ofTokens (Token.scan "StereoMix s()\ns => output\ngate => output") =
      ⟨⟨[⟨.global, .construction ⟨⟨"StereoMix", ⟨0, 9⟩⟩, some ⟨"s", ⟨10, 11⟩⟩, [], ⟨0, 13⟩⟩⟩,
          ⟨.global, .chain (.name ⟨"s", ⟨14, 15⟩⟩) [] (.name ⟨"output", ⟨19, 25⟩⟩) ⟨14, 25⟩⟩,
          ⟨.global, .chain (.name ⟨"gate", ⟨26, 30⟩⟩) [] (.name ⟨"output", ⟨34, 40⟩⟩)
            ⟨26, 40⟩⟩]⟩, []⟩ := by
    cbv
  refine differ_of_ofTokens hsum hparts rfl rfl ?_
  rw [built_eq, built_eq]
  decide

/-- Without any one of the conditions a sum may differ from its parts. -/
theorem sum_differs :
    Differ "Mix m()\nstartvoice\ngate + Mix m() => m\nendvoice"
      "Mix m()\nstartvoice\ngate => m\nMix m() => m\nendvoice" ∧
    Differ "startvoice\ngate + Knob k() => output\nendvoice"
      "startvoice\ngate => output\nKnob k() => output\nendvoice" ∧
    Differ "StereoMix s()\ns + gate => output" "StereoMix s()\ns => output\ngate => output" :=
  ⟨differ_shadowed, differ_refused, differ_sides⟩

end Patchbay.Building
