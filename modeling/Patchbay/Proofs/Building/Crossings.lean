import Mathlib.Data.List.Induction
import Patchbay.Proofs.Building.Built
import Patchbay.Proofs.Building.Export
import Patchbay.Proofs.Building.Scopes
import Patchbay.Proofs.Graph.Schedule

/-! Where the voices reach shared objects. Shared lines leave the objects of the voice block alone,
so a signal that each voice has of its own gets to a shared object through a line of the voice block
only. -/
namespace Patchbay.Building
open Relation
variable {α : Type}

/-- What lines of a scope do to the objects there and to the shared names. An object stays, shared
lines change none of the voice block, and sockets only gain what lines of the scope may refer to.
The objects that come are all of the scope. Lines of the voice block bind no shared name. -/
structure Confined (scope : Scope) (s t : State α) : Prop where
  shapes : s.shapes <+: t.shapes
  kept : scope = .global → ∀ (id : Nat) (d : Draft α), s.objects[id]? = some d → d.perVoice = true →
    t.objects[id]? = some d
  gains : ∀ (id : Nat) (d : Draft α), s.objects[id]? = some d → ∃ d', t.objects[id]? = some d' ∧
    d'.mixes.length = d.mixes.length ∧ ∀ (socket : Nat) mix, d.mixes[socket]? = some mix →
      ∃ more, d'.mixes[socket]? = some (mix ++ more) ∧ SeenMix scope t.owners more
  comes : ∀ (id : Nat) (d : Draft α), s.objects.length ≤ id → t.objects[id]? = some d →
    d.perVoice = decide (scope = .voice) ∧ ∀ mix ∈ d.mixes, SeenMix scope t.owners mix
  names : scope = .voice → t.global = s.global

/-- What holds of a state and of all that the changes lead to, one by one. -/
def Always (P : State α → Prop) : State α → List (Change α) → Prop
  | s, [] => P s
  | s, c :: rest => P s ∧ Always P (s.change c) rest

section Changes
variable {scope : Scope} {s t : State α}

theorem Confined.refl (scope : Scope) (s : State α) : Confined scope s s where
  shapes := List.prefix_rfl
  kept := fun _ _ _ hd _ => hd
  gains := fun id d hd => ⟨d, hd, rfl, fun socket mix hm =>
    ⟨[], by rw [List.append_nil, hm], fun c hc => absurd hc List.not_mem_nil⟩⟩
  comes := by
    intro id d hid hd
    exact absurd (List.getElem?_eq_some_iff.mp hd).1 (Nat.not_lt_of_le hid)
  names := fun _ => rfl

private theorem Confined.add (h : Confined scope s t) (cls : UnitClass) (origin : Origin)
    (span : Option Span) : Confined scope s (t.add (.fresh cls scope origin span)) := by
  have hobjects : t.objects <+: (t.add (.fresh cls scope origin span)).objects :=
    List.prefix_append _ _
  have hgrow : t.owners <+: (t.add (.fresh cls scope origin span)).owners :=
    hobjects.map Draft.perVoice
  refine ⟨h.shapes.trans (hobjects.map Draft.shape), ?_, ?_, ?_, h.names⟩
  · intro hscope id d hd hown
    exact getElem?_mono hobjects (h.kept hscope id d hd hown)
  · intro id d hd
    obtain ⟨d', hd', hlength, hmixes⟩ := h.gains id d hd
    refine ⟨d', getElem?_mono hobjects hd', hlength, fun socket mix hm => ?_⟩
    obtain ⟨more, hmore, hseen⟩ := hmixes socket mix hm
    exact ⟨more, hmore, hseen.mono hgrow⟩
  · intro id d hid hd
    rcases Nat.lt_or_ge id t.objects.length with hlt | hge
    · have hd : t.objects[id]? = some d := by
        rwa [State.add, List.getElem?_append_left hlt] at hd
      obtain ⟨hown, hmixes⟩ := h.comes id d hid hd
      exact ⟨hown, fun mix hm => (hmixes mix hm).mono hgrow⟩
    · rw [State.add, List.getElem?_append_right hge] at hd
      cases List.mem_singleton.mp (List.mem_of_getElem? hd)
      refine ⟨rfl, fun mix hm => ?_⟩
      rw [List.eq_of_mem_replicate hm]
      exact fun c hc => absurd hc List.not_mem_nil

private theorem Confined.mix (h : Confined scope s t) {object socket : Nat}
    {more : List (Contribution α)} (htarget : Seen scope t.owners object)
    (hmore : SeenMix scope t.owners more) : Confined scope s (t.mix object socket more) := by
  have hshapes := t.shapes_mix object socket more
  have howners : (t.mix object socket more).owners = t.owners := by
    rw [State.owners_eq, hshapes, State.owners_eq]
  have hget : ∀ id, (t.mix object socket more).objects[id]? = t.objects[id]?.map fun d =>
      if object = id then { d with mixes := d.mixes.modify socket (· ++ more) } else d := by
    intro id
    rw [State.mix, List.getElem?_modify]
    rfl
  refine ⟨hshapes ▸ h.shapes, ?_, ?_, ?_, h.names⟩
  · rintro rfl id d hd hown
    have hkept := h.kept rfl id d hd hown
    have hne : object ≠ id := by
      rintro rfl
      rw [Seen, State.owners, List.getElem?_map, hkept, Option.map_some, hown] at htarget
      cases htarget
    rw [hget, hkept, Option.map_some, if_neg hne]
  · intro id d hd
    obtain ⟨d', hd', hlength, hmixes⟩ := h.gains id d hd
    rw [hget, hd', Option.map_some, howners]
    refine ⟨_, rfl, ?_, fun place mix hm => ?_⟩
    · split
      · exact (List.length_modify _ _ _).trans hlength
      · exact hlength
    · obtain ⟨old, hold, hseen⟩ := hmixes place mix hm
      split
      · dsimp only
        rw [List.getElem?_modify, hold]
        by_cases hp : socket = place
        · exact ⟨old ++ more, by simp [hp], hseen.append hmore⟩
        · exact ⟨old, by simp [hp], hseen⟩
      · exact ⟨old, hold, hseen⟩
  · intro id d hid hd
    rw [hget] at hd
    obtain ⟨e, he, rfl⟩ := Option.map_eq_some_iff.mp hd
    obtain ⟨hown, hmixes⟩ := h.comes id e hid he
    rw [howners]
    split
    · refine ⟨hown, fun mix hm => ?_⟩
      rcases mem_modify hm with hm | ⟨old, hold, rfl⟩
      · exact hmixes mix hm
      · exact (hmixes old hold).append hmore
    · exact ⟨hown, hmixes⟩

/-- A proper change keeps to the scope. -/
theorem Confined.change (h : Confined scope s t) {c : Change α} (hc : c.Proper scope t) :
    Confined scope s (t.change c) := by
  cases hc with
  | add cls origin span => exact h.add cls origin span
  | mix htarget hmore => exact h.mix htarget hmore
  | bind hv =>
    cases scope with
    | global => exact ⟨h.shapes, h.kept, h.gains, h.comes, fun hscope => by cases hscope⟩
    | voice => exact ⟨h.shapes, h.kept, h.gains, h.comes, h.names⟩
  | parameter _ _ => exact ⟨h.shapes, h.kept, h.gains, h.comes, h.names⟩
  | warning w => exact ⟨h.shapes, h.kept, h.gains, h.comes, h.names⟩

theorem always_append {P : State α → Prop} {first second : List (Change α)}
    (h : Always P s first) (h' : Always P (s.changeAll first) second) :
    Always P s (first ++ second) := by
  induction first generalizing s with
  | nil => exact h'
  | cons c rest ih => exact ⟨h.1, ih h.2 h'⟩

theorem Always.last {P : State α → Prop} {changes : List (Change α)} (h : Always P s changes) :
    P (s.changeAll changes) := by
  induction changes generalizing s with
  | nil => exact h
  | cons c rest ih => exact ih h.2

/-- All along proper changes states stay apart and what happens keeps to the scope. -/
theorem always_confined {changes : List (Change α)} (ha : t.Apart) (hc : Confined scope s t)
    (h : Proceeds scope t changes) : Always (fun u => u.Apart ∧ Confined scope s u) t changes := by
  induction changes generalizing t with
  | nil => exact ⟨ha, hc⟩
  | cons c rest ih => exact ⟨⟨ha, hc⟩, ih (ha.change h.1) (hc.change h.1) h.2⟩

end Changes

/-- Nothing reads anything at the start, and the built-in names are bound by proper changes. -/
private def Fresh (s : State α) : Prop :=
  (∃ changes, s = State.empty.changeAll changes ∧ Always State.Apart .empty changes) ∧
    ∀ d ∈ s.objects, ∀ mix ∈ d.mixes, mix = []

private theorem fresh_withBuiltin (s : State α) (cls : UnitClass) (scope : Scope) (name : String)
    (h : Fresh s) : Fresh (s.withBuiltin cls scope name) := by
  obtain ⟨⟨changes, hs, halways⟩, hempty⟩ := h
  have hapart : s.Apart := hs ▸ halways.last
  have hseen : Seen scope (s.add (.fresh cls scope .builtin none)).owners s.objects.length := by
    cases scope with
    | global => simp [Seen, State.owners, State.add, Draft.fresh]
    | voice => simp [Seen, State.owners, State.add]
  have hadd : Change.Proper scope s (.add (.fresh cls scope .builtin none)) := .add cls .builtin none
  have hbind : Change.Proper scope (s.add (.fresh cls scope .builtin none))
      (.bind scope name [.object ⟨s.objects.length, cls⟩ none]) := .bind (.object hseen none)
  refine ⟨⟨changes ++ [.add (.fresh cls scope .builtin none),
    .bind scope name [.object ⟨s.objects.length, cls⟩ none]], ?_, always_append halways ?_⟩, ?_⟩
  · rw [State.changeAll_append, ← hs]
    rfl
  · rw [← hs]
    exact ⟨hapart, hapart.change hadd, (hapart.change hadd).change hbind⟩
  · intro d hd mix hm
    have hd : d ∈ s.objects ++ [.fresh cls scope .builtin none] := by
      cases scope <;> exact hd
    rcases List.mem_append.mp hd with hd | hd
    · exact hempty d hd mix hm
    · rw [List.mem_singleton.mp hd] at hm
      exact List.eq_of_mem_replicate hm

private theorem fresh_start (catalog : Catalog) :
    Fresh ((start catalog).run (.empty : State α)).2 := by
  have hempty : Fresh (.empty : State α) := by
    refine ⟨⟨[], rfl, ⟨fun name v hv => ?_, fun name v hv => ?_, fun d hd => ?_⟩⟩, fun d hd => ?_⟩
    · cases hv
    · cases hv
    · cases hd
    · cases hd
  have hstart : Leads (start catalog) (.empty : State α) (fun _ s => Fresh s) fun _ s => Fresh s := by
    cases hi : catalog.resolve? Builtin.userInput with
    | none =>
      rw [start, leads_bind, leads_classUnder, hi]
      exact hempty
    | some input =>
      cases ho : catalog.resolve? Builtin.stereoOutput with
      | none =>
        rw [start, leads_bind, leads_classUnder, hi]
        dsimp only
        rw [leads_bind, leads_classUnder, ho]
        exact hempty
      | some output =>
        exact (leads_start hi ho).mpr (seed_induction input output hempty
          fun s cls scope name _ h => fresh_withBuiltin s cls scope name h)
  rw [Leads] at hstart
  split at hstart
  · next he => rw [he]; exact hstart
  · next he => rw [he]; exact hstart

variable [Arithmetic α]

/-- What is there once some lines of a program are worked through. -/
def stateAfter (catalog : Catalog) (lines : List Line) : State α :=
  buildLines catalog ((start catalog).run .empty).2 lines

theorem stateAfter_concat (catalog : Catalog) (lines : List Line) (line : Line) :
    (stateAfter catalog (lines ++ [line]) : State α) =
      (stateAfter catalog lines).after (buildStatement catalog line.scope line.statement) :=
  List.foldl_concat _ _ _ _

private theorem proceeds_line (catalog : Catalog) {s : State α} (h : s.Apart) (line : Line) :
    ∃ changes faults, Proceeds line.scope s changes ∧
      s.after (buildStatement catalog line.scope line.statement) =
        { s.changeAll changes with faults := (s.changeAll changes).faults ++ faults } := by
  apply Leads.after (fun t : State α => ∃ changes faults, Proceeds line.scope s changes ∧
    t = { s.changeAll changes with faults := (s.changeAll changes).faults ++ faults })
  refine Leads.imp (heeds_buildStatement catalog h line.statement) ?_ ?_
  · rintro _ t ⟨changes, hp, rfl⟩
    exact ⟨changes, [], hp, by rw [List.append_nil]⟩
  · rintro fault t ⟨changes, hp, rfl⟩
    exact ⟨changes, [fault], hp, rfl⟩

private theorem apart_stateAfter (catalog : Catalog) (lines : List Line) :
    (stateAfter catalog lines : State α).Apart := by
  induction lines using List.reverseRecOn with
  | nil =>
    obtain ⟨⟨changes, hs, halways⟩, _⟩ := fresh_start (α := α) catalog
    show ((start catalog).run (.empty : State α)).2.Apart
    rw [hs]
    exact halways.last
  | append_singleton lines line ih =>
    obtain ⟨changes, faults, hp, hs⟩ := proceeds_line catalog ih line
    rw [stateAfter_concat, hs]
    have ha := ih.changeAll hp
    exact ⟨ha.global, ha.voice, ha.mixes⟩

private theorem confined_line (catalog : Catalog) (lines : List Line) (line : Line) :
    Confined line.scope (stateAfter catalog lines : State α)
      (stateAfter catalog (lines ++ [line])) := by
  have ha := apart_stateAfter (α := α) catalog lines
  obtain ⟨changes, faults, hp, hs⟩ := proceeds_line catalog ha line
  rw [stateAfter_concat, hs]
  have hc := (always_confined ha (.refl _ _) hp).last.2
  exact ⟨hc.shapes, hc.kept, hc.gains, hc.comes, hc.names⟩

/-- A shared object reads one that each voice has of its own. -/
def State.Crosses (s : State α) (i j : Nat) : Prop :=
  s.owners[j]? = some true ∧ ∃ (d : Draft α) (socket : Nat) (mix : List (Contribution α)),
    s.objects[i]? = some d ∧ d.perVoice = false ∧ d.mixes[socket]? = some mix ∧
      ∃ c ∈ mix, c.object? = some j

/-- A shared object that is there gains a summand that reads the other. -/
def Sends (s t : State α) (i j : Nat) : Prop :=
  ∃ (d d' : Draft α) (socket : Nat) (mix more : List (Contribution α)),
    s.objects[i]? = some d ∧ d.perVoice = false ∧ t.objects[i]? = some d' ∧
      d.mixes[socket]? = some mix ∧ d'.mixes[socket]? = some (mix ++ more) ∧
        ∃ c ∈ more, c.object? = some j

omit [Arithmetic α] in
/-- Only lines of the voice block let a shared object read one of theirs. -/
private theorem sends_of_crosses {scope : Scope} {s t : State α} (h : Confined scope s t)
    (ha : s.Apart) {i j : Nat} (hcross : t.Crosses i j) :
    s.Crosses i j ∨ scope = .voice ∧ Sends s t i j := by
  obtain ⟨hown, d', socket, mix', hd', hshared, hmix', c, hc, hj⟩ := hcross
  have hread : ∀ {mix}, SeenMix scope t.owners mix → c ∈ mix → scope = .voice := by
    intro mix hseen hc
    cases scope with
    | global =>
      have hj := hseen c hc j hj
      rw [Seen, hown] at hj
      cases hj
    | voice => rfl
  rcases Nat.lt_or_ge i s.objects.length with hlt | hge
  · -- The reader was there already, and the summand came before or comes now.
    have hd := List.getElem?_eq_getElem hlt
    obtain ⟨e, he, hlength, hmixes⟩ := h.gains i _ hd
    cases he.symm.trans hd'
    have howners : s.owners <+: t.owners := by
      rw [State.owners_eq, State.owners_eq]
      exact h.shapes.map Shape.perVoice
    have hthere : s.objects[i].perVoice = false := by
      have hold : s.owners[i]? = some s.objects[i].perVoice := by
        rw [State.owners, List.getElem?_map, hd, Option.map_some]
      have hnew := getElem?_mono howners hold
      rw [State.owners, List.getElem?_map, hd', Option.map_some, hshared] at hnew
      exact (Option.some.inj hnew).symm
    have hsocket : socket < s.objects[i].mixes.length :=
      hlength ▸ (List.getElem?_eq_some_iff.mp hmix').1
    have hmix := List.getElem?_eq_getElem hsocket
    obtain ⟨more, hmore, hseen⟩ := hmixes socket _ hmix
    cases hmore.symm.trans hmix'
    rcases List.mem_append.mp hc with hc | hc
    · have hj' : j < s.owners.length :=
        ha.mixes _ (List.mem_of_getElem? hd) _ (List.mem_of_getElem? hmix) c hc j hj
      have hj'' := getElem?_mono howners (List.getElem?_eq_getElem hj')
      refine .inl ⟨?_, _, socket, _, hd, hthere, hmix, c, hc, hj⟩
      rw [List.getElem?_eq_getElem hj', ← hown, hj'']
    · exact .inr ⟨hread hseen hc, _, _, socket, _, more, hd, hthere, hd', hmix, hmix', c, hc, hj⟩
  · -- An object that comes now is shared only if the line is, and then reads none of the voices.
    obtain ⟨hscope, hmixes⟩ := h.comes i d' hge hd'
    rw [hread (hmixes mix' (List.mem_of_getElem? hmix')) hc, hshared] at hscope
    cases hscope

/-- A line of the voice block lets one object read another. -/
def SentByVoices (α : Type) [Arithmetic α] (catalog : Catalog) (lines : List Line) (i j : Nat) :
    Prop :=
  ∃ before line after, lines = before ++ line :: after ∧ line.scope = .voice ∧
    Sends (stateAfter (α := α) catalog before) (stateAfter catalog (before ++ [line])) i j

private theorem sentByVoices_of_crosses (catalog : Catalog) (lines : List Line) {i j : Nat}
    (h : (stateAfter (α := α) catalog lines).Crosses i j) : SentByVoices α catalog lines i j := by
  induction lines using List.reverseRecOn with
  | nil =>
    obtain ⟨_, d, socket, mix, hd, _, hmix, c, hc, _⟩ := h
    have hempty := (fresh_start (α := α) catalog).2 d (List.mem_of_getElem? hd) mix
      (List.mem_of_getElem? hmix)
    rw [hempty] at hc
    cases hc
  | append_singleton lines line ih =>
    rcases sends_of_crosses (confined_line catalog lines line) (apart_stateAfter catalog lines) h with
      hbefore | ⟨hscope, hsends⟩
    · obtain ⟨before, sender, after, rfl, hsender⟩ := ih hbefore
      exact ⟨before, sender, after ++ [line], by simp, hsender⟩
    · exact ⟨lines, line, [], rfl, hscope, hsends⟩

/-- One node of a graph reads another. -/
def Reads (g : Graph α) : Nat → Nat → Prop := Graph.Reads (g.nodes.map Node.dependencies)

omit [Arithmetic α] in
/-- A finished object reads what the object under construction does. -/
private theorem exists_mix_of_dependencies (o : Options) (d : Draft α) {j : Nat}
    (h : j ∈ (d.finished o).dependencies) :
    ∃ (socket : Nat) (mix : List (Contribution α)), d.mixes[socket]? = some mix ∧
      ∃ c ∈ mix, c.object? = some j := by
  rw [dependencies_finished, Node.dependencies] at h
  obtain ⟨c, hc, hj⟩ := List.mem_filterMap.mp h
  obtain ⟨mix, hmix, hc⟩ := List.mem_flatten.mp hc
  obtain ⟨entry, hentry, hvalue⟩ := List.mem_map.mp hmix
  obtain ⟨⟨socket, sent⟩, hz, hn⟩ := List.mem_flatMap.mp (SortedMap.mem_ofList hentry)
  obtain ⟨_, _, he⟩ := List.mem_map.mp hn
  subst he
  subst hvalue
  obtain ⟨place, hplace⟩ := List.getElem?_of_mem (List.of_mem_zip hz).2
  exact ⟨place, sent, hplace, c, hc, hj⟩

omit [Arithmetic α] in
private theorem perVoice_graph (s : State α) (o : Options) (order : List Nat) :
    (s.graph o order).nodes.map Node.perVoice = s.owners := by
  rw [State.nodes_graph, List.map_map, State.owners]
  apply List.map_congr_left
  intro d _
  exact perVoice_finished o d

omit [Arithmetic α] in
private theorem crosses_of_reads {s : State α} {o : Options} {order : List Nat} {i j : Nat}
    (hr : Reads (s.graph o order) i j) (hi : s.owners[i]? = some false)
    (hj : s.owners[j]? = some true) : s.Crosses i j := by
  obtain ⟨hread, _⟩ := hr
  rw [State.owners, List.getElem?_map] at hi
  obtain ⟨d, hd, hshared⟩ := Option.map_eq_some_iff.mp hi
  rw [State.nodes_graph, List.map_map, List.getD_eq_getElem?_getD, List.getElem?_map, hd] at hread
  obtain ⟨socket, mix, hmix, hc⟩ := exists_mix_of_dependencies o d hread
  exact ⟨hj, d, socket, mix, hd, hshared, hmix, hc⟩

omit [Arithmetic α] in
/-- On a way from a shared object to one of the voices there is a step from the one kind to the
other. -/
private theorem exists_crossing {g : Graph α} {i j : Nat} (h : ReflTransGen (Reads g) i j)
    (hi : (g.nodes.map Node.perVoice)[i]? = some false)
    (hj : (g.nodes.map Node.perVoice)[j]? = some true) :
    ∃ i' j', ReflTransGen (Reads g) i i' ∧ (g.nodes.map Node.perVoice)[i']? = some false ∧
      Reads g i' j' ∧ (g.nodes.map Node.perVoice)[j']? = some true ∧
      ReflTransGen (Reads g) j' j := by
  induction h with
  | refl =>
    rw [hi] at hj
    cases hj
  | tail hway hstep ih =>
    next mid last =>
    cases hmid : (g.nodes.map Node.perVoice)[mid]? with
    | none =>
      have hout : (g.nodes.map Node.dependencies)[mid]? = none := by
        rw [List.getElem?_eq_none_iff, List.length_map] at hmid ⊢
        exact hmid
      have hread := hstep.1
      rw [List.getD_eq_getElem?_getD, hout] at hread
      cases hread
    | some own =>
      cases own with
      | false => exact ⟨mid, last, hway, hmid, hstep, hj, .refl⟩
      | true =>
        obtain ⟨i', j', hto, hi', hr, hj', hfrom⟩ := ih hmid
        exact ⟨i', j', hto, hi', hr, hj', hfrom.tail hstep⟩

/-- Shared lines never touch the voices, for every catalog and program. Every state on the way from
the start through all lines is apart: what its shared names stand for belongs to no voice. Change by
change a line keeps to its scope: a shared line adds shared objects only, lets sockets gain what
shared objects give only, and leaves the objects of the voice block as they are; a line of the voice
block adds only objects of the voices and binds no shared name. So in a finished graph a shared
object reads one of the voices only where a line of the voice block sent the one to the other, and
on every way from a shared object to one of the voices there is such a reading. -/
theorem shared_lines_apart (catalog : Catalog) (program : Program) :
    (∃ changes, (stateAfter catalog [] : State α) = State.empty.changeAll changes ∧
      Always State.Apart .empty changes) ∧
    (∀ before line after, program.lines = before ++ line :: after →
      ∃ changes faults,
        (stateAfter catalog (before ++ [line]) : State α) =
          { (stateAfter catalog before).changeAll changes with
            faults := ((stateAfter catalog before).changeAll changes).faults ++ faults } ∧
        Always (fun s => s.Apart ∧ Confined line.scope (stateAfter catalog before) s)
          (stateAfter catalog before) changes) ∧
    ∀ (o : Options) (g : Graph α), (build catalog o program).graph = some g →
      (∀ i j, Reads g i j → (g.nodes.map Node.perVoice)[i]? = some false →
        (g.nodes.map Node.perVoice)[j]? = some true → SentByVoices α catalog program.lines i j) ∧
      ∀ i j, ReflTransGen (Reads g) i j → (g.nodes.map Node.perVoice)[i]? = some false →
        (g.nodes.map Node.perVoice)[j]? = some true →
          ∃ i' j', ReflTransGen (Reads g) i i' ∧ Reads g i' j' ∧
            SentByVoices α catalog program.lines i' j' ∧ ReflTransGen (Reads g) j' j := by
  refine ⟨(fresh_start catalog).1, fun before line after _ => ?_, fun o g hg => ?_⟩
  · have ha := apart_stateAfter (α := α) catalog before
    obtain ⟨changes, faults, hp, hs⟩ := proceeds_line catalog ha line
    refine ⟨changes, faults, ?_, always_confined ha (.refl _ _) hp⟩
    rw [stateAfter_concat, hs]
  · have hstate : ∃ order, g = (stateAfter catalog program.lines : State α).graph o order := by
      rw [build] at hg
      split at hg
      · cases hg
      · next he =>
        obtain ⟨_, order, _, hfinish⟩ := State.of_graph_finish hg
        refine ⟨order, ?_⟩
        rw [stateAfter, he]
        exact hfinish
    obtain ⟨order, hgraph⟩ := hstate
    have hedge : ∀ i j, Reads g i j → (g.nodes.map Node.perVoice)[i]? = some false →
        (g.nodes.map Node.perVoice)[j]? = some true →
          SentByVoices α catalog program.lines i j := by
      intro i j hr hi hj
      rw [hgraph] at hr hi hj
      rw [perVoice_graph] at hi hj
      exact sentByVoices_of_crosses catalog program.lines (crosses_of_reads hr hi hj)
    refine ⟨hedge, fun i j hway hi hj => ?_⟩
    obtain ⟨i', j', hto, hi', hr, hj', hfrom⟩ := exists_crossing hway hi hj
    exact ⟨i', j', hto, hr, hedge i' j' hr hi' hj', hfrom⟩

end Patchbay.Building
