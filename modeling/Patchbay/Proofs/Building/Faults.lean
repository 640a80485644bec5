import Mathlib
import Patchbay.Proofs.Building.Appending
import Patchbay.Proofs.Building.Built
import Patchbay.Proofs.Building.Soundness
import Patchbay.Proofs.Checking.Distinct
import Patchbay.Token.Scan

/-! Which faults are left to be found when lines are built that passed the check. A parameter inside
the voice block is refused, its line is given up, and names may be lost with it. -/
namespace Patchbay

section Typed
open Checking
variable {catalog : Catalog} {scope : Scope} {names names' : Names} {name : String}

def Checking.Judgment.bound : Judgment → List String
  | .expr e _ => e.bound
  | .args _ _ values => Construction.boundArgs values

private theorem not_mem_kept_append {first second : List String} :
    name ∉ kept (first ++ second) ↔ name ∉ kept first ∧ name ∉ kept second := by
  rw [kept_append, List.mem_append, not_or]

private theorem table_put_of_ne {ident : Ident} {d : Declaration} (hkept : ident.isDiscard = false)
    (hname : name ∉ kept [ident.name]) :
    ((names.put scope ident.name d).table scope).get? name = (names.table scope).get? name := by
  rw [kept_name, if_neg (Bool.eq_false_iff.mp hkept), List.mem_singleton] at hname
  rw [Names.table_put, Table.get?_put, if_neg hname]

/-- The check learns of no names but those that are bound. -/
theorem Checking.Typed.table {judgment : Judgment} (h : Typed catalog scope names judgment names')
    (hname : name ∉ kept judgment.bound) :
    (names'.table scope).get? name = (names.table scope).get? name := by
  induction h with
  | number | socket | output | name | nil => rfl
  | unary _ _ ih => exact ih hname
  | binary _ _ _ _ ihl ihr =>
    obtain ⟨hl, hr⟩ := not_mem_kept_append.mp hname
    exact (ihr hr).trans (ihl hl)
  | mapping _ _ _ _ _ _ ihs ihl ihh =>
    obtain ⟨hs, hrest⟩ := not_mem_kept_append.mp hname
    obtain ⟨hl, hh⟩ := not_mem_kept_append.mp hrest
    exact (ihh hh).trans ((ihl hl).trans (ihs hs))
  | construction _ _ ih =>
    rename_i ident _ _ _ _ _
    obtain ⟨hargs, hident⟩ := not_mem_kept_append.mp hname
    refine Eq.trans ?_ (ih hargs)
    cases ident with
    | none => rfl
    | some ident =>
      rw [Names.declare]
      split
      · rfl
      · next hkept => exact table_put_of_ne (Bool.eq_false_iff.mpr hkept) hident
  | positional _ _ _ _ ihv ihr | labelled _ _ _ _ ihv ihr =>
    obtain ⟨hv, hr⟩ := not_mem_kept_append.mp hname
    exact (ihr hr).trans (ihv hv)

theorem Checking.TypedLinks.table {links : List Expr}
    (h : TypedLinks catalog scope names links names')
    (hname : name ∉ kept (links.flatMap Expr.bound)) :
    (names'.table scope).get? name = (names.table scope).get? name := by
  induction h with
  | last ht _ =>
    rw [List.flatMap_singleton] at hname
    exact ht.table hname
  | step ht _ _ _ ih =>
    obtain ⟨hlink, hrest⟩ := not_mem_kept_append.mp hname
    exact (ih hrest).trans (ht.table hlink)

theorem Checking.TypedStatement.table {statement : Statement}
    (h : TypedStatement catalog scope names statement names')
    (hname : name ∉ kept statement.bound) :
    (names'.table scope).get? name = (names.table scope).get? name := by
  cases h with
  | definition ht hkept =>
    obtain ⟨hvalue, hident⟩ := not_mem_kept_append.mp hname
    exact (table_put_of_ne hkept hident).trans (ht.table hvalue)
  | construction ht => exact ht.table hname
  | chain ht _ hlinks =>
    obtain ⟨hsource, hrest⟩ := not_mem_kept_append.mp hname
    exact (hlinks.table hrest).trans (ht.table hsource)

end Typed

namespace Building
open Checking
variable {α β γ : Type}

/-- The names of the voice block that may be without the value that the check expects once some
lines are built, by the faults found behind any lines. A line given up was to bind them, or a lost
name is in the value that they were bound to. -/
inductive Lost (faults : List Line → List (Located Fault)) : List Line → String → Prop
  | given {before : List Line} {statement : Statement} {name : String}
    (hfault : faults (before ++ [⟨.voice, statement⟩]) ≠ faults before)
    (hname : name ∈ kept statement.bound) :
    Lost faults (before ++ [⟨.voice, statement⟩]) name
  | defined {before : List Line} {name used : Ident} {value : Expr} {span : Span}
    (hused : used ∈ value.carried) (hlost : Lost faults before used.name) :
    Lost faults (before ++ [⟨.voice, .definition name value span⟩]) name.name
  | earlier {before : List Line} {line : Line} {name : String} (hlost : Lost faults before name) :
    Lost faults (before ++ [line]) name

theorem not_lost_nil {faults : List Line → List (Located Fault)} {name : String} :
    ¬ Lost faults [] name := by
  intro h
  generalize hnil : [] = lines at h
  cases h <;> simp at hnil

/-- Names are lost behind a line only if some were before, or if it found a fault. -/
theorem Lost.concat {faults : List Line → List (Located Fault)} {before : List Line} {line : Line}
    {name : String} (h : Lost faults (before ++ [line]) name) :
    (∃ used, Lost faults before used) ∨ faults (before ++ [line]) ≠ faults before := by
  generalize hlines : before ++ [line] = lines at h
  cases h with
  | given hfault _ =>
    obtain ⟨rfl, _⟩ := List.append_inj' hlines rfl
    exact .inr hfault
  | defined _ hlost =>
    obtain ⟨rfl, _⟩ := List.append_inj' hlines rfl
    exact .inl ⟨_, hlost⟩
  | earlier hlost =>
    obtain ⟨rfl, _⟩ := List.append_inj' hlines rfl
    exact .inl ⟨_, hlost⟩

/-- What holds between lines that passed the check: all names fit but for the lost ones. -/
structure Sane (catalog : Catalog) (lost : String → Prop) (names : Names) (s : State α) : Prop where
  global : TablesFit catalog noName s.shapes names.global s.global
  voice : TablesFit catalog lost s.shapes names.voice s.voice

theorem stable_shapes (scope : Scope) :
    Stable scope fun s s' : State α => s.shapes <+: s'.shapes where
  refl := fun _ => List.prefix_rfl
  trans := fun h h' => h.trans h'
  add := fun s d => by rw [State.shapes_add]; exact List.prefix_append _ _
  mix := fun s _ _ _ => by rw [State.shapes_mix]
  bind := fun s _ _ => by rw [State.shapes_bind]
  parameters := fun _ _ _ => List.prefix_rfl
  warnings := fun _ _ => List.prefix_rfl

section Lines
variable {catalog : Catalog} {scope : Scope} {lost : String → Prop} {names names' : Names} {s : State α}

/-- Lines of the voice block see the lost names, shared lines see none. -/
theorem Sane.agrees (h : Sane catalog lost names s) (scope : Scope) :
    Agrees catalog scope (fun name => scope = .voice ∧ lost name) names s where
  only := fun _ hlost => hlost.1
  global := h.global
  voice := fun hscope => h.voice.mono List.prefix_rfl fun _ hlost => ⟨hscope, hlost⟩

variable [Arithmetic α] (hops : Operable catalog) (hk : catalog.Regular)
include hops hk

/-- A line adds no fault, or one that is excused. All names still fit behind it but for those that
were lost, that are defined by way of them, or that it was to bind and did not. -/
theorem Sane.after (lost' : String → Prop) {statement : Statement}
    (ht : TypedStatement catalog scope names statement names') (h : Sane catalog lost names s)
    (hl : ∀ name, lost name → lost' name)
    (hdefined : ∀ name value span, scope = .voice → statement = .definition name value span →
      ∀ used ∈ value.carried, lost used.name → lost' name.name)
    (hgiven : scope = .voice → (s.after (buildStatement catalog scope statement)).faults ≠ s.faults →
      ∀ name ∈ kept statement.bound, lost' name) :
    Sane catalog lost' names' (s.after (buildStatement catalog scope statement)) ∧
      ((s.after (buildStatement catalog scope statement)).faults = s.faults ∨
        ∃ f, (s.after (buildStatement catalog scope statement)).faults = s.faults ++ [f] ∧
          Excused scope (fun name => scope = .voice ∧ lost name) statement.uses f) := by
  have hfits := leads_buildStatement hops hk (fun name => scope = .voice ∧ lost' name) ht
    (h.agrees scope) (fun name hlost => ⟨hlost.1, hl name hlost.2⟩) (fun _ hlost => hlost.1)
    fun name value span heq used hused hlost =>
      ⟨hlost.1, hdefined name value span hlost.1 heq used hused hlost.2⟩
  have hframe := ((stable_others scope).moves_buildStatement catalog statement s).and
    ((stable_shapes scope).moves_buildStatement catalog statement s)
  have hown := (appends_buildStatement catalog scope statement s).own
  have hothers : names'.others scope = names.others scope := ht.others
  have hends := Leads.after (fun s' => s.shapes <+: s'.shapes ∧ s'.others scope = s.others scope ∧
    ((s'.faults = s.faults ∧
      Agrees catalog scope (fun name => scope = .voice ∧ lost' name) names' s') ∨
    ∃ f, s'.faults = s.faults ++ [f] ∧
      Excused scope (fun name => scope = .voice ∧ lost name) statement.uses f))
    ((hfits.and hframe).imp (fun _ s' hs => ⟨hs.2.2, hs.2.1.1, .inl ⟨hs.2.1.2, hs.1.2⟩⟩) fun f s' hs =>
      ⟨hs.2.2, hs.2.1.1, .inr ⟨f, congrArg (· ++ [f]) hs.2.1.2, hs.1⟩⟩)
  generalize s.after (buildStatement catalog scope statement) = s' at hgiven hown hends ⊢
  obtain ⟨hs, hothers, ⟨hfaults, hagrees⟩ | ⟨f, hadd, hf⟩⟩ := hends
  · refine ⟨⟨hagrees.global, ?_⟩, .inl hfaults⟩
    cases scope with
    | global =>
      have hvoice : s'.voice = s.voice := hothers
      have hnames : names'.voice = names.voice := ht.others
      rw [hvoice, hnames]
      exact h.voice.mono hs hl
    | voice => exact (hagrees.voice rfl).mono List.prefix_rfl fun _ hlost => hlost.2
  · have hscope : scope = .voice := by
      rcases hf with ⟨hscope, _⟩ | ⟨_, _, ⟨hscope, _⟩, _⟩
      · exact hscope
      · exact hscope
    subst hscope
    refine ⟨⟨?_, fun name hname => ?_⟩, .inr ⟨f, hadd, hf⟩⟩
    · have hglobal : s'.global = s.global := hothers
      have hnames : names'.global = names.global := ht.others
      rw [hglobal, hnames]
      exact h.global.mono hs fun _ => id
    · -- What the line was to bind is lost, all other names keep their values.
      have hbound : name ∉ kept statement.bound := by
        refine fun hm => hname (hgiven rfl ?_ name hm)
        rw [hadd]
        simp
      have hvalue : s'.voice.get? name = s.voice.get? name := hown name hbound
      have hnames : names'.voice.get? name = names.voice.get? name := ht.table hbound
      rw [hvalue, hnames]
      exact h.voice.mono hs hl name hname

/-- Without faults nothing is lost. -/
theorem Sane.clear {statement : Statement}
    (ht : TypedStatement catalog scope names statement names') (h : Sane catalog noName names s)
    (hf : (s.after (buildStatement catalog scope statement)).faults = s.faults) :
    Sane catalog noName names' (s.after (buildStatement catalog scope statement)) :=
  (h.after hops hk noName ht (fun _ => id) (fun _ _ _ _ _ _ _ => id) fun _ hne => absurd hf hne).1

/-- The faults found once some lines are built, from a state on. -/
def faultsAfter (catalog : Catalog) (s : State α) (lines : List Line) : List (Located Fault) :=
  (buildLines catalog s lines).faults

/-- Between lines: the names fit but for the lost ones, and nothing is lost before a parameter was
refused. -/
structure Settled (catalog : Catalog) (s : State α) (names : Names) (before : List Line) : Prop where
  sane : Sane catalog (Lost (faultsAfter catalog s) before) names (buildLines catalog s before)
  refused : ∀ name, Lost (faultsAfter catalog s) before name →
    ∃ f ∈ faultsAfter catalog s before, f.fault = .voiceParameter

omit hops hk in
theorem buildLines_concat (s : State α) (before : List Line) (line : Line) :
    buildLines catalog s (before ++ [line]) =
      (buildLines catalog s before).after (buildStatement catalog line.scope line.statement) := by
  rw [buildLines, List.foldl_append]
  rfl

/-- A line adds no fault, or one that is excused by the names lost before it. -/
theorem Settled.step {before : List Line} {line : Line} (h : Settled catalog s names before)
    (ht : TypedStatement catalog line.scope names line.statement names') :
    Settled catalog s names' (before ++ [line]) ∧
      (faultsAfter catalog s (before ++ [line]) = faultsAfter catalog s before ∨
        ∃ f, faultsAfter catalog s (before ++ [line]) = faultsAfter catalog s before ++ [f] ∧
          Excused line.scope
            (fun name => line.scope = .voice ∧ Lost (faultsAfter catalog s) before name)
            line.statement.uses f) := by
  obtain ⟨scope, statement⟩ := line
  have hstep := h.sane.after hops hk
    (Lost (faultsAfter catalog s) (before ++ [⟨scope, statement⟩])) ht (fun _ => .earlier) ?_ ?_
  · rw [← buildLines_concat s before ⟨scope, statement⟩] at hstep
    obtain ⟨hsane, hfound⟩ := hstep
    rw [← faultsAfter, ← faultsAfter] at hfound
    refine ⟨⟨hsane, fun name hlost => ?_⟩, hfound⟩
    replace hlost := hlost.concat
    generalize faultsAfter catalog s (before ++ [⟨scope, statement⟩]) = faults at hfound hlost ⊢
    have hrefused : ∀ used, Lost (faultsAfter catalog s) before used →
        ∃ f ∈ faults, f.fault = .voiceParameter := by
      intro used hused
      obtain ⟨f, hm, hf⟩ := h.refused used hused
      obtain rfl | ⟨g, rfl, _⟩ := hfound
      · exact ⟨f, hm, hf⟩
      · exact ⟨f, List.mem_append_left _ hm, hf⟩
    rcases hlost with ⟨used, hused⟩ | hne
    · exact hrefused used hused
    · obtain ⟨f, rfl, ⟨_, hf⟩ | ⟨use, _, hused, _⟩⟩ := hfound.resolve_left hne
      · exact ⟨f, List.mem_append_right _ (List.mem_singleton_self f), hf⟩
      · exact hrefused use.name.name hused.2
  · rintro name value span rfl rfl used hused hlost
    exact .defined hused hlost
  · rintro rfl hne name hm
    refine .given ?_ hm
    rw [faultsAfter, buildLines_concat]
    exact hne

/-- A fault found in typed lines is a refused parameter, or it is about a lost name that its line in
the voice block uses. -/
theorem Settled.fault {before lines : List Line} (h : Settled catalog s names before)
    (ht : TypedLines catalog names lines names') {f : Located Fault}
    (hf : f ∈ faultsAfter catalog s (before ++ lines)) :
    f ∈ faultsAfter catalog s before ∨ f.fault = .voiceParameter ∨
      ∃ front line after, before ++ lines = front ++ line :: after ∧ line.scope = .voice ∧
        (∃ g ∈ faultsAfter catalog s front, g.fault = .voiceParameter) ∧
        faultsAfter catalog s (front ++ [line]) = faultsAfter catalog s front ++ [f] ∧
        ∃ use ∈ line.statement.uses, Lost (faultsAfter catalog s) front use.name.name ∧
          use.Fails f := by
  induction ht generalizing before with
  | nil => exact .inl (List.append_nil before ▸ hf)
  | @cons names names₁ names₂ line rest hline _ ih =>
    obtain ⟨hnext, hfound⟩ := h.step hops hk hline
    have hall : before ++ line :: rest = before ++ [line] ++ rest := by simp
    rw [hall] at hf ⊢
    rcases ih hnext hf with hold | hlater
    · rcases hfound with hsame | ⟨g, hadd, hg⟩
      · exact .inl (hsame ▸ hold)
      · rcases List.mem_append.mp (hadd ▸ hold) with hold | hlast
        · exact .inl hold
        · rw [List.mem_singleton.mp hlast]
          refine .inr (hg.imp (·.2) ?_)
          rintro ⟨use, huse, ⟨hscope, hlost⟩, hfails⟩
          exact ⟨before, line, rest, hall.symm, hscope, h.refused _ hlost, hadd, use, huse, hlost,
            hfails⟩
    · exact .inr hlater

end Lines

section Standard

theorem standard_operable : Operable Library.standard.catalog where
  inverter := ⟨_, rfl, by decide, by decide⟩
  attenuator := ⟨_, rfl, by decide, by decide⟩
  mapping := fun polarity => by cases polarity <;> exact ⟨_, rfl, by decide, by decide⟩

private theorem rel_lookup {R : β → γ → Prop} {l : List (String × β)} {m : List (String × γ)}
    (h : List.Forall₂ (fun a b => a.1 = b.1 ∧ R a.2 b.2) l m) (name : String) :
    Option.Rel R (l.lookup name) (m.lookup name) := by
  induction h with
  | nil => exact .none
  | @cons a b l m hab _ ih =>
    obtain ⟨k, v⟩ := a
    obtain ⟨k', w⟩ := b
    obtain ⟨rfl, hr⟩ := hab
    rw [List.lookup_cons, List.lookup_cons]
    dsimp only at *
    cases name == k with
    | true => exact .some hr
    | false => exact ih

private theorem fits_input {shapes : List Shape} {id : Nat} (h : Placed shapes id) :
    Fits Library.standard.catalog shapes ⟨.source, some Builtin.userInput⟩
      [(.object ⟨id, inputClass⟩ none : Atom α)] where
  output := fun _ a ha => by
    rw [List.mem_singleton.mp ha]
    exact readable_object (show inputClass.givesSignal = true by decide) none
  input := fun hin => by cases hin
  object := fun name hname => by
    cases hname
    exact ⟨_, _, rfl, resolve?_userInput, h⟩

private theorem fits_output {shapes : List Shape} {id : Nat} (h : Placed shapes id) :
    Fits Library.standard.catalog shapes ⟨.sink, some Builtin.stereoOutput⟩
      [(.object ⟨id, outputClass⟩ none : Atom α)] where
  output := fun hout => by cases hout
  input := fun _ => .inl ⟨_, _, rfl, show outputClass.takesSignal = true by decide, h⟩
  object := fun name hname => by
    cases hname
    exact ⟨_, _, rfl, resolve?_stereoOutput, h⟩

/-- The built-in names have the values that the check takes for granted. -/
theorem sane_seed :
    Sane Library.standard.catalog noName .builtin (seed inputClass outputClass : State α) := by
  have hplaced : ∀ id, id < 10 → Placed (seed inputClass outputClass : State α).shapes id := by
    intro id hid
    have hall : ∀ x ∈ builtinShapes inputClass outputClass, x.origin = .builtin := by
      simp [builtinShapes]
    have hlt : id < (builtinShapes inputClass outputClass).length := hid
    rw [Placed, shapes_seed]
    refine ⟨_, List.getElem?_eq_getElem hlt, ?_⟩
    rw [hall _ (List.getElem_mem hlt)]
    exact Origin.noConfusion
  refine ⟨fun name _ => rel_lookup ?_ name, fun name _ => rel_lookup ?_ name⟩
  · refine .cons ⟨rfl, fits_input (hplaced 0 (by decide))⟩ ?_
    refine .cons ⟨rfl, fits_input (hplaced 1 (by decide))⟩ ?_
    refine .cons ⟨rfl, fits_input (hplaced 2 (by decide))⟩ ?_
    refine .cons ⟨rfl, fits_input (hplaced 3 (by decide))⟩ ?_
    exact .cons ⟨rfl, fits_output (hplaced 4 (by decide))⟩ .nil
  · refine .cons ⟨rfl, fits_input (hplaced 5 (by decide))⟩ ?_
    refine .cons ⟨rfl, fits_input (hplaced 6 (by decide))⟩ ?_
    refine .cons ⟨rfl, fits_input (hplaced 7 (by decide))⟩ ?_
    refine .cons ⟨rfl, fits_input (hplaced 8 (by decide))⟩ ?_
    exact .cons ⟨rfl, fits_input (hplaced 9 (by decide))⟩ .nil

variable [Arithmetic α]

/-- Of a text that reads and checks without faults, building reports nothing but cycles, parameters
inside the voice block, and uses of names in the voice block that are lost: behind such a parameter,
a line that was given up was to bind them, or such a name is in the value that they stand for. -/
theorem build_fault_of_check (source : String)
    (hread : (Program.ofTokens (Token.scan source)).faults = [])
    (hcheck : (check Library.standard.catalog
      (Program.ofTokens (Token.scan source)).program).faults = [])
    (o : Options) (f : Located Fault)
    (hf : f ∈ (build Library.standard.catalog o (Program.ofTokens (Token.scan source)).program :
      Outcome α).faults) :
    f.fault = .cycle ∨ f.fault = .voiceParameter ∨
      ∃ before line after,
        (Program.ofTokens (Token.scan source)).program.lines = before ++ line :: after ∧
        line.scope = .voice ∧
        (∃ g ∈ (built ⟨before⟩ : State α).faults, g.fault = .voiceParameter) ∧
        (built ⟨before ++ [line]⟩ : State α).faults = (built ⟨before⟩ : State α).faults ++ [f] ∧
        ∃ use ∈ line.statement.uses,
          Lost (fun lines => (built ⟨lines⟩ : State α).faults) before use.name.name ∧
            use.Fails f := by
  rw [build_standard, State.finish] at hf
  split at hf
  · left
    split at hf
    · rw [List.mem_singleton.mp hf]
    · cases hf
  · right
    have hfaults : (fun lines => (built ⟨lines⟩ : State α).faults) =
        faultsAfter Library.standard.catalog (seed inputClass outputClass : State α) := by
      funext lines
      rw [built_eq]
      rfl
    have hsettled : Settled Library.standard.catalog (seed inputClass outputClass : State α)
        .builtin [] := by
      refine ⟨⟨sane_seed.global, ?_⟩, fun name hlost => absurd hlost not_lost_nil⟩
      exact sane_seed.voice.mono List.prefix_rfl fun _ => False.elim
    have ht := typedLines_of_check (Program.errorFree_ofTokens hread) hcheck
    rw [built_eq] at hf
    have hfound := (hsettled.fault standard_operable Library.standard_regular ht hf).resolve_left
      List.not_mem_nil
    rw [hfaults]
    refine hfound.imp_right ?_
    rintro ⟨before, line, after, hlines, hscope, hrefused, hadd, huse⟩
    refine ⟨before, line, after, hlines, hscope, ?_, ?_, huse⟩
    · rw [built_eq]
      exact hrefused
    · rw [built_eq, built_eq]
      exact hadd

/-- A knob inside the voice block, and a line that uses it. -/
def voiceKnob : String := "startvoice\nKnob k()\nk => output\nendvoice"

private theorem lines_voiceKnob : (Program.ofTokens (Token.scan voiceKnob)).program.lines =
    [⟨.voice, .construction ⟨⟨"Knob", ⟨11, 15⟩⟩, some ⟨"k", ⟨16, 17⟩⟩, [], ⟨11, 19⟩⟩⟩,
      ⟨.voice, .chain (.name ⟨"k", ⟨20, 21⟩⟩) [] (.name ⟨"output", ⟨25, 31⟩⟩) ⟨20, 31⟩⟩] := by
  cbv

private theorem faults_voiceKnob (o : Options) :
    (build Library.standard.catalog o (Program.ofTokens (Token.scan voiceKnob)).program :
      Outcome Float).faults =
        [⟨.voiceParameter, some ⟨16, 17⟩⟩, ⟨.undefinedName "k", some ⟨20, 21⟩⟩] := by
  rw [build_standard, built_eq, lines_voiceKnob]
  rfl

/-- The knob is refused, and then there is no value for its name. -/
theorem voiceKnob_undefined :
    (Program.ofTokens (Token.scan voiceKnob)).faults = [] ∧
      (check Library.standard.catalog (Program.ofTokens (Token.scan voiceKnob)).program).faults = [] ∧
      ∃ f ∈ (build Library.standard.catalog .standard
          (Program.ofTokens (Token.scan voiceKnob)).program : Outcome Float).faults,
        f.fault ≠ .cycle ∧ f.fault ≠ .voiceParameter := by
  refine ⟨by cbv, by cbv, ⟨.undefinedName "k", some ⟨20, 21⟩⟩, ?_, by simp, by simp⟩
  rw [faults_voiceKnob]
  exact List.mem_cons_of_mem _ (List.mem_singleton_self _)

theorem build_fault_of_check_voiceKnob :
    ((Program.ofTokens (Token.scan voiceKnob)).faults = [] ∧
      (check Library.standard.catalog (Program.ofTokens (Token.scan voiceKnob)).program).faults = [] ∧
      (⟨.undefinedName "k", some ⟨20, 21⟩⟩ : Located Fault) ∈
        (build Library.standard.catalog .standard
          (Program.ofTokens (Token.scan voiceKnob)).program : Outcome Float).faults) ∧
    (Fault.undefinedName "k" = .cycle ∨ Fault.undefinedName "k" = .voiceParameter ∨
      ∃ before line after,
        (Program.ofTokens (Token.scan voiceKnob)).program.lines = before ++ line :: after ∧
        line.scope = .voice ∧
        (∃ g ∈ (built ⟨before⟩ : State Float).faults, g.fault = .voiceParameter) ∧
        (built ⟨before ++ [line]⟩ : State Float).faults =
          (built ⟨before⟩ : State Float).faults ++ [⟨.undefinedName "k", some ⟨20, 21⟩⟩] ∧
        ∃ use ∈ line.statement.uses,
          Lost (fun lines => (built ⟨lines⟩ : State Float).faults) before use.name.name ∧
            use.Fails ⟨.undefinedName "k", some ⟨20, 21⟩⟩) := by
  have hread : (Program.ofTokens (Token.scan voiceKnob)).faults = [] := by cbv
  have hcheck : (check Library.standard.catalog
      (Program.ofTokens (Token.scan voiceKnob)).program).faults = [] := by cbv
  have hf : (⟨.undefinedName "k", some ⟨20, 21⟩⟩ : Located Fault) ∈
      (build Library.standard.catalog .standard
        (Program.ofTokens (Token.scan voiceKnob)).program : Outcome Float).faults := by
    rw [faults_voiceKnob]
    exact List.mem_cons_of_mem _ (List.mem_singleton_self _)
  exact ⟨⟨hread, hcheck, hf⟩, build_fault_of_check voiceKnob hread hcheck .standard _ hf⟩

end Standard
end Building
end Patchbay
