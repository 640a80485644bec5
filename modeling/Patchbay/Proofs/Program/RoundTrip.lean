import Mathlib
import Patchbay.Proofs.Program.ReadBack

/-! What is printed is read back: the tokens of a program give the program again, apart from its
places, as long as they are not nested too deeply. -/
namespace Patchbay.Program
open Token (Kind)
variable {ts rest : List Token} {stop : Span}

/-- No token at the front goes on with a statement that was read. -/
structure Follows (rest : List Token) : Prop where
  stops : Stops rest
  arrow : ∀ t ∈ rest.head?, isArrow true t = false

private theorem follows_nil : Follows [] := by
  constructor
  · constructor
    · constructor <;> simp
    · simp [NoMapping]
    · simp
    · simp
  · simp

private theorem follows_cons {kind : Kind} (h : goesOn kind = false) (hf : kind ≠ .operator .arrow)
    (hb : kind ≠ .operator .backArrow) (span : Span) (rest : List Token) :
    Follows (⟨kind, span⟩ :: rest) := by
  refine ⟨stops_cons h span rest, ?_⟩
  rintro t ⟨⟩
  simp [isArrow, hf, hb]

/-- A new operand does not go on with what stands in front of it. -/
private theorem follows_of_begins (h : Begins (rest.map Token.kind)) : Follows rest := by
  generalize hkinds : rest.map Token.kind = kinds at h
  cases h with
  | number value unit kinds =>
    obtain ⟨span, us, rfl, _⟩ := exists_of_kinds_cons hkinds
    exact follows_cons rfl (by simp) (by simp) span us
  | group kinds =>
    obtain ⟨span, us, rfl, _⟩ := exists_of_kinds_cons hkinds
    exact follows_cons rfl (by simp) (by simp) span us
  | new kinds =>
    obtain ⟨span, us, rfl, _⟩ := exists_of_kinds_cons hkinds
    exact follows_cons rfl (by simp) (by simp) span us
  | name name kinds h =>
    obtain ⟨span, us, rfl, hus⟩ := exists_of_kinds_cons hkinds
    obtain ⟨after, vs, rfl, _⟩ := exists_of_kinds_cons hus
    refine ⟨stops_name h name span after vs, ?_⟩
    rintro t ⟨⟩
    rfl

/-- The links are the expressions apart from places. -/
structure AreLinks (es : List Expr) (links : List Link) : Prop where
  bare : (links.map Link.expr).map Expr.bare = es.map Expr.bare
  honest : ∀ l ∈ links, l.Honest

theorem AreLinks.cons {e : Expr} {es : List Expr} {l : Link} {links : List Link} (h : IsLink e l)
    (hs : AreLinks es links) : AreLinks (e :: es) (l :: links) := by
  refine ⟨?_, List.forall_mem_cons.mpr ⟨h.honest, hs.honest⟩⟩
  rw [List.map_cons, List.map_cons, List.map_cons, h.bare, hs.bare]

private theorem stops_links {es : List Expr} (hts : ts.map Token.kind = linkKinds es) (hr : Stops rest) :
    Stops (ts ++ rest) := by
  cases es with
  | nil =>
    obtain rfl := List.map_eq_nil_iff.mp hts
    exact hr
  | cons e es =>
    obtain ⟨span, us, rfl, _⟩ := exists_of_kinds_cons hts
    exact stops_cons rfl span _

private theorem yields_readLinks {es : List Expr} (h : ∀ e ∈ es, e.Proper)
    (hn : ∀ e ∈ es, e.operandNesting < nestingLimit) (hts : ts.map Token.kind = linkKinds es)
    (hr : Follows rest) : Yields rest (AreLinks es) (readLinks false stop (ts ++ rest)) := by
  induction es generalizing ts with
  | nil =>
    obtain rfl := List.map_eq_nil_iff.mp hts
    have hnone : AreLinks [] [] := ⟨rfl, fun l hl => absurd hl List.not_mem_nil⟩
    rw [List.nil_append, readLinks.eq_def]
    cases rest with
    | nil => exact .done hnone
    | cons t rest =>
      have harrow : isArrow false t = false := by
        have := hr.arrow t rfl
        simp_all [isArrow]
      dsimp only
      rw [if_neg (Bool.eq_false_iff.mp harrow)]
      exact .done hnone
  | cons e es ih =>
    obtain ⟨he, hes⟩ := List.forall_mem_cons.mp h
    obtain ⟨hne, hnes⟩ := List.forall_mem_cons.mp hn
    obtain ⟨arrow, ws, rfl, hws⟩ := exists_of_kinds_cons hts
    obtain ⟨us, vs, rfl, hus, hvs⟩ := List.map_eq_append_iff.mp hws
    rw [List.cons_append, List.append_assoc, readLinks.eq_def]
    dsimp only
    rw [if_pos (by rfl)]
    have hread : Yields (vs ++ rest) (IsLink e) (readExpr stop 0 (us ++ (vs ++ rest))) :=
      (readsBack e he).operand.readsExpr hus (by omega) (stops_links hvs hr.stops)
    refine Yields.behind (hread.andThen fun l _ hl => ?_)
    exact (ih hes hnes hvs).map fun links hlinks => hlinks.cons hl

/-- A chain written forward is the chain that its links were read from. -/
private theorem chainOf_bare {source target : Expr} {steps : List Expr} {first second : Link}
    {more : List Link} (h : AreLinks (source :: steps ++ [target]) (first :: second :: more))
    (span : Span) :
    (chainOf false first second more).1.bare = (Statement.chain source steps target span).bare := by
  obtain ⟨hfirst, hothers⟩ := List.cons_eq_cons.mp h.bare
  have hmap : ((second :: more).map Link.expr).map Expr.bare = (steps ++ [target]).map Expr.bare :=
    hothers
  rw [map_expr_others, List.map_append, List.map_append] at hmap
  obtain ⟨hsteps, htarget⟩ := List.append_inj' hmap rfl
  rw [chainOf, if_neg Bool.false_ne_true, Statement.bare, Statement.bare, hfirst, hsteps,
    (List.cons_eq_cons.mp htarget).1]

/-- A chain from its source on, behind the first arrow. -/
private theorem yields_readChain {source target second : Expr} {steps others : List Expr} {first : Link}
    {span : Span} {us : List Token} (hes : steps ++ [target] = second :: others)
    (h : (Statement.chain source steps target span).Proper)
    (hn : (Statement.chain source steps target span).nesting < nestingLimit)
    (hf : IsLink source first) (hts : ts.map Token.kind = second.operandKinds)
    (hus : us.map Token.kind = linkKinds others) (hr : Follows rest) :
    Yields rest (fun s => s.bare = (Statement.chain source steps target span).bare)
      (readChain false stop first (ts ++ (us ++ rest))) := by
  obtain ⟨hproper, hconnected⟩ := h
  have hnesting : ∀ e ∈ source :: steps ++ [target], e.operandNesting < nestingLimit :=
    fun e he => Nat.lt_of_le_of_lt (operandNesting_le_nesting span he) hn
  rw [List.cons_append, hes] at hproper hnesting
  obtain ⟨_, hsecond, hothers⟩ := by simpa only [List.forall_mem_cons] using hproper
  obtain ⟨_, hsecond', hothers'⟩ := by simpa only [List.forall_mem_cons] using hnesting
  have hread : Yields (us ++ rest) (IsLink second) (readExpr stop 0 (ts ++ (us ++ rest))) :=
    (readsBack second hsecond).operand.readsExpr hts (by omega) (stops_links hus hr.stops)
  rw [readChain]
  refine hread.andThen fun l _ hl => ?_
  refine (yields_readLinks hothers hothers' hus hr).andThen fun links _ hlinks => ?_
  have hall : AreLinks (source :: steps ++ [target]) (first :: l :: links) := by
    rw [List.cons_append, hes]
    exact (hlinks.cons hl).cons hf
  have hfaults : (chainOf false first l links).2 = [] := by
    rw [chainOf, if_neg Bool.false_ne_true]
    exact (linkFaults_eq_nil_iff hall.honest).mpr (hconnected.of_bare hall.bare)
  have hbare := chainOf_bare hall span
  generalize chainOf false first l links = chain at hfaults hbare
  refine Yields.noting ?_ hfaults
  exact .done hbare

private theorem yields_readRouting_chain {source target : Expr} {steps : List Expr} {span : Span}
    (h : (Statement.chain source steps target span).Proper)
    (hn : (Statement.chain source steps target span).nesting < nestingLimit)
    (hts : ts.map Token.kind = (Statement.chain source steps target span).kinds)
    (hr : Follows rest) :
    Yields rest (fun s => s.bare = (Statement.chain source steps target span).bare)
      (readRouting stop (ts ++ rest)) := by
  obtain ⟨second, others, hes⟩ : ∃ second others, steps ++ [target] = second :: others :=
    List.exists_cons_of_ne_nil (by simp)
  rw [Statement.kinds, hes] at hts
  obtain ⟨us, arrow, ws, rfl, hus, hws⟩ := exists_of_kinds_append hts
  obtain ⟨vs, ws, rfl, hvs, hws⟩ := List.map_eq_append_iff.mp hws
  have hsource : source.operandNesting < nestingLimit :=
    Nat.lt_of_le_of_lt (operandNesting_le_nesting span List.mem_cons_self) hn
  rw [List.append_assoc, List.cons_append, List.append_assoc, readRouting]
  have hread : Yields (⟨.operator .arrow, arrow⟩ :: (vs ++ (ws ++ rest))) (IsLink source)
      (readExpr stop 0 (us ++ ⟨.operator .arrow, arrow⟩ :: (vs ++ (ws ++ rest)))) :=
    (readsBack source (h.1 source List.mem_cons_self)).operand.readsExpr hus (by omega)
      (stops_cons rfl arrow _)
  refine hread.andThen fun l _ hl => ?_
  exact (yields_readChain hes h hn hl hvs hws hr).behind

private theorem yields_readRouting_construction {c : Construction Expr}
    (h : (Statement.construction c).Proper) (hn : c.nesting < nestingLimit)
    (hts : ts.map Token.kind = c.kinds) (hr : Follows rest) :
    Yields rest (fun s => s.bare = (Statement.construction c).bare)
      (readRouting stop (ts ++ rest)) := by
  have hread : Yields rest (IsLink (.construction c)) (readExpr stop 0 (ts ++ rest)) :=
    (readsBack _ h).expr stop 0 ts rest hts (by rwa [Nat.zero_add]) hr.stops
  rw [readRouting]
  refine hread.andThen fun l _ hl => ?_
  obtain ⟨c', hc', hbare⟩ := Expr.exists_of_bare_construction hl.bare
  split
  · cases hr.arrow _ rfl
  · cases hr.arrow _ rfl
  · rw [hc']
    exact .done (congrArg Statement.construction hbare)

private theorem ne_definition_of_construction (c : Construction Expr) (name : String)
    (kinds more : List Kind) : c.kinds ++ more ≠ .name name :: .operator .assign :: kinds := by
  obtain ⟨className, object, args, span⟩ := c
  intro h
  cases object with
  | none => cases h
  | some object => cases h

private theorem ne_definition_of_operand {e : Expr} (h : e.Proper) (name : String)
    (kinds more : List Kind) :
    e.operandKinds ++ .operator .arrow :: more ≠ .name name :: .operator .assign :: kinds := by
  intro hkinds
  cases h with
  | construction className object span h hr =>
    exact ne_definition_of_construction _ name kinds _ hkinds
  | _ => cases hkinds

theorem readStatement_eq_readRouting
    (h : ∀ name kinds, ts.map Token.kind ≠ .name name :: .operator .assign :: kinds) :
    readStatement stop ts = readRouting stop ts := by
  rw [readStatement.eq_def]
  split
  · exact absurd rfl (h _ _)
  · rfl

private theorem yields_readStatement {s : Statement} (h : s.Proper) (hn : s.nesting < nestingLimit)
    (hts : ts.map Token.kind = s.kinds) (hr : Follows rest) :
    Yields rest (fun read => read.bare = s.bare) (readStatement stop (ts ++ rest)) := by
  cases s with
  | error span => exact h.elim
  | definition name value span =>
    obtain ⟨place, us, rfl, hus⟩ := exists_of_kinds_cons hts
    obtain ⟨assign, vs, rfl, hvs⟩ := exists_of_kinds_cons hus
    have hread : Yields rest (IsLink value) (readExpr stop 0 (vs ++ rest)) :=
      (readsBack value h).expr stop 0 vs rest hvs (by rwa [Nat.zero_add]) hr.stops
    rw [List.cons_append, List.cons_append, readStatement.eq_def]
    refine Yields.behind (hread.map fun l hl => ?_)
    simp only [Statement.bare, Ident.bare, hl.bare]
  | construction c =>
    rw [readStatement_eq_readRouting]
    · exact yields_readRouting_construction h hn hts hr
    · intro name kinds
      rw [List.map_append, hts]
      exact ne_definition_of_construction c name kinds _
  | chain source steps target span =>
    rw [readStatement_eq_readRouting]
    · exact yields_readRouting_chain h hn hts hr
    · intro name kinds
      obtain ⟨more, hmore⟩ := linkKinds_eq_cons steps target
      rw [List.map_append, hts, Statement.kinds, hmore, List.append_assoc, List.cons_append]
      exact ne_definition_of_operand (h.1 source List.mem_cons_self) name kinds _

/-- The lines apart from places, without faults. -/
structure IsReading (lines : List Line) (r : Reading) : Prop where
  faults : r.faults = []
  bare : r.program.bare = Program.bare ⟨lines⟩

/-- Lines that can be printed and read back. -/
private def Printable (lines : List Line) : Prop :=
  ∀ line ∈ lines, line.statement.Proper ∧ line.statement.nesting < nestingLimit

private theorem follows_change {scope next : Scope} {kinds : List Kind}
    (h : ∀ us : List Token, us.map Token.kind = kinds → Follows us)
    (hr : rest.map Token.kind = scope.change next ++ kinds) : Follows rest := by
  cases scope <;> cases next
  · exact h rest hr
  · obtain ⟨span, us, rfl, _⟩ := exists_of_kinds_cons hr
    exact follows_cons rfl (by simp) (by simp) span us
  · obtain ⟨span, us, rfl, _⟩ := exists_of_kinds_cons hr
    exact follows_cons rfl (by simp) (by simp) span us
  · exact h rest hr

private theorem follows_kindsBehind {lines : List Line} {scope : Scope} (h : Printable lines)
    (hr : rest.map Token.kind = kindsBehind scope lines) : Follows rest := by
  cases lines with
  | nil =>
    rw [kindsBehind, ← List.append_nil (scope.change .global)] at hr
    refine follows_change (fun us hus => ?_) hr
    obtain rfl := List.map_eq_nil_iff.mp hus
    exact follows_nil
  | cons line lines =>
    rw [kindsBehind_cons] at hr
    refine follows_change (fun us hus => follows_of_begins ?_) hr
    rw [hus, kindsBehind_self]
    exact (h line List.mem_cons_self).1.begins _

/-- A statement that takes tokens becomes a line. -/
private theorem readLines_of_yields {block : Block} {good : Statement → Prop}
    (hb : Begins (ts.map Token.kind)) (h : Yields rest good (readStatement stop ts))
    (hlt : rest.length < ts.length) :
    ∃ s, good s ∧
      readLines stop block ts = (readLines stop block rest).behind [⟨block.scope, s⟩] [] := by
  obtain ⟨hfaults, rfl, s, hs, hgood⟩ := h
  refine ⟨s, hgood, ?_⟩
  rw [readLines.eq_def]
  split
  · cases hb
  · cases hb
  · cases hb
  · next t us _ _ =>
    dsimp only
    rw [List.length_cons] at hlt
    rw [dif_pos (by omega), hs, hfaults]

/-- A line is read, and then the lines behind it. -/
private theorem isReading_cons {block : Block} {line : Line} {lines : List Line}
    (h : Printable (line :: lines)) (hb : block.scope = line.scope)
    (hts : ts.map Token.kind = kindsBehind line.scope (line :: lines))
    (ih : ∀ us : List Token, us.map Token.kind = kindsBehind line.scope lines →
      IsReading lines (readLines stop block us)) :
    IsReading (line :: lines) (readLines stop block ts) := by
  obtain ⟨⟨hproper, hnesting⟩, hlines⟩ := List.forall_mem_cons.mp h
  rw [kindsBehind_self] at hts
  have hbegins := hproper.begins (kindsBehind line.scope lines)
  rw [← hts] at hbegins
  obtain ⟨us, vs, rfl, hus, hvs⟩ := List.map_eq_append_iff.mp hts
  have hpos : us ≠ [] := by
    rintro rfl
    apply (hproper.begins []).ne_nil
    rw [← hus]
    rfl
  have hlt : vs.length < (us ++ vs).length := by
    have := List.length_pos_iff.mpr hpos
    rw [List.length_append]
    omega
  have hstatement : Yields vs (fun read => read.bare = line.statement.bare)
      (readStatement stop (us ++ vs)) :=
    yields_readStatement hproper hnesting hus (follows_kindsBehind hlines hvs)
  obtain ⟨s, hs, hread⟩ := readLines_of_yields hbegins hstatement hlt
  obtain ⟨hfaults, hbare⟩ := ih vs hvs
  rw [hread]
  refine ⟨hfaults, ?_⟩
  calc Program.bare ⟨⟨block.scope, s⟩ :: (readLines stop block vs).program.lines⟩
    _ = ⟨⟨block.scope, s.bare⟩ :: (readLines stop block vs).program.bare.lines⟩ := rfl
    _ = ⟨⟨line.scope, line.statement.bare⟩ :: (Program.bare ⟨lines⟩).lines⟩ := by rw [hb, hs, hbare]
    _ = Program.bare ⟨line :: lines⟩ := rfl

/-- Lines behind the voice block, or of a text that has none. -/
private theorem isReading_global {lines : List Line} (h : Printable lines)
    (hs : ∀ line ∈ lines, line.scope = .global) (seen : Bool)
    (hts : ts.map Token.kind = kindsBehind .global lines) :
    IsReading lines (readLines stop ⟨none, seen⟩ ts) := by
  induction lines generalizing ts with
  | nil =>
    obtain rfl := List.map_eq_nil_iff.mp hts
    rw [readLines.eq_def]
    exact ⟨rfl, rfl⟩
  | cons line lines ih =>
    obtain ⟨hline, hlines⟩ := List.forall_mem_cons.mp hs
    rw [← hline] at hts
    refine isReading_cons h hline.symm hts fun us hus => ?_
    rw [hline] at hus
    exact ih (List.forall_mem_cons.mp h).2 hlines hus

/-- Lines from inside the voice block on. -/
private theorem isReading_voice {inside after : List Line} {opened : Span}
    (h : Printable (inside ++ after)) (hi : ∀ line ∈ inside, line.scope = .voice)
    (ha : ∀ line ∈ after, line.scope = .global)
    (hts : ts.map Token.kind = kindsBehind .voice (inside ++ after)) :
    IsReading (inside ++ after) (readLines stop ⟨some opened, true⟩ ts) := by
  induction inside generalizing ts with
  | nil =>
    have hkinds : kindsBehind .voice after = .keyword .endVoice :: kindsBehind .global after := by
      cases after with
      | nil => rfl
      | cons line after =>
        rw [kindsBehind_cons, ha line List.mem_cons_self]
        rfl
    rw [List.nil_append, hkinds] at hts
    obtain ⟨closed, us, rfl, hus⟩ := exists_of_kinds_cons hts
    rw [readLines.eq_def]
    exact isReading_global h ha true hus
  | cons line inside ih =>
    obtain ⟨hline, hinside⟩ := List.forall_mem_cons.mp hi
    rw [← hline] at hts
    refine isReading_cons h hline.symm hts fun us hus => ?_
    rw [hline] at hus
    exact ih (List.forall_mem_cons.mp h).2 hinside hus

/-- The lines of a text that has one voice block. -/
private theorem isReading_before {before inside after : List Line}
    (h : Printable (before ++ inside ++ after)) (hb : ∀ line ∈ before, line.scope = .global)
    (hi : ∀ line ∈ inside, line.scope = .voice) (ha : ∀ line ∈ after, line.scope = .global)
    (hts : ts.map Token.kind = kindsBehind .global (before ++ inside ++ after)) :
    IsReading (before ++ inside ++ after) (readLines stop ⟨none, false⟩ ts) := by
  induction before generalizing ts with
  | nil =>
    cases inside with
    | nil => exact isReading_global h ha false hts
    | cons line inside =>
      have hline := hi line List.mem_cons_self
      rw [List.nil_append, List.cons_append, kindsBehind_cons, hline] at hts
      obtain ⟨opened, us, rfl, hus⟩ := exists_of_kinds_cons hts
      rw [readLines.eq_def]
      exact isReading_voice h hi ha hus
  | cons line before ih =>
    obtain ⟨hline, hbefore⟩ := List.forall_mem_cons.mp hb
    rw [← hline] at hts
    refine isReading_cons h hline.symm hts fun us hus => ?_
    rw [hline] at hus
    exact ih (List.forall_mem_cons.mp h).2 hbefore hus

/-- Reading undoes printing. Whatever the places of the tokens, a program is read back from its
tokens without faults, as long as they are not nested too deeply. -/
theorem ofTokens_of_kinds {p : Program} (hp : ∀ line ∈ p.lines, line.statement.Proper)
    (hb : p.HasOneBlock) (hn : ∀ line ∈ p.lines, line.statement.nesting < nestingLimit)
    {ts : List Token} (hts : ts.map Token.kind = p.kinds) :
    (ofTokens ts).faults = [] ∧ (ofTokens ts).program.bare = p.bare := by
  obtain ⟨lines⟩ := p
  obtain ⟨before, inside, after, rfl, hbefore, hinside, hafter⟩ := hb
  have hprintable : Printable (before ++ inside ++ after) :=
    fun line hl => ⟨hp line hl, hn line hl⟩
  obtain ⟨hfaults, hbare⟩ := isReading_before hprintable hbefore hinside hafter hts
  exact ⟨hfaults, hbare⟩

/-- A name that stands nowhere. -/
private def named (name : String) : Ident := ⟨name, ⟨0, 0⟩⟩

/-- A signed and mapped operator inside the voice block, sent through another one. -/
def tremolo : Program where
  lines :=
    [⟨.global, .definition (named "depth") (.name (named "gate")) ⟨0, 0⟩⟩,
      ⟨.voice, .construction
        ⟨named "Sine", some (named "s"),
          [⟨some ⟨named "frequency", ⟨0, 0⟩⟩,
            .binary .multiply (.name (named "pitch"))
              (.binary .add (.name (named "depth")) (.name (named "gate")) ⟨0, 0⟩) ⟨0, 0⟩⟩,
            ⟨none, .name (named "depth")⟩], ⟨0, 0⟩⟩⟩,
      ⟨.voice, .chain
        (.mapping .bipolar (.unary .minus (.output (named "s") (named "output") ⟨0, 0⟩) ⟨0, 0⟩)
          (.name (named "depth")) (.name (named "gate")) ⟨0, 0⟩)
        [.construction ⟨named "Gain", none, [⟨none, .name (named "depth")⟩], ⟨0, 0⟩⟩]
        (.socket (named "s") (named "phase") ⟨0, 0⟩) ⟨0, 0⟩⟩,
      ⟨.global, .chain (.name (named "depth")) [] (.name (named "output")) ⟨0, 0⟩⟩]

def tremoloText : String :=
  "depth = gate startvoice Sine s(.frequency = pitch * (depth + gate), depth) " ++
    "((-s:output) bi [depth, gate]) => new Gain(depth) => s.phase endvoice depth => output"

theorem ofTokens_of_kinds_tremolo :
    (∀ line ∈ tremolo.lines, line.statement.Proper) ∧ tremolo.HasOneBlock ∧
      (∀ line ∈ tremolo.lines, line.statement.nesting < nestingLimit) ∧
      (Token.scan tremoloText).map Token.kind = tremolo.kinds ∧
      (ofTokens (Token.scan tremoloText)).faults = [] ∧
      (ofTokens (Token.scan tremoloText)).program.bare = tremolo.bare := by
  have hp : ∀ line ∈ tremolo.lines, line.statement.Proper := by
    simp only [tremolo, List.forall_mem_cons]
    refine ⟨.name _, .construction _ _ _ ?_ ?_, ⟨?_, ?_⟩, ⟨?_, ?_⟩, fun line hl => (by cases hl)⟩
    · simp only [List.forall_mem_cons]
      have hsum : Expr.Proper
          (.binary .add (.name (named "depth")) (.name (named "gate")) ⟨0, 0⟩) :=
        .binary _ _ (.name _) (.name _)
      exact ⟨.binary _ _ (.name _) hsum, .name _, fun arg ha => (by cases ha)⟩
    · decide
    · simp only [List.cons_append, List.nil_append, List.forall_mem_cons]
      have hsigned : Expr.Proper
          (.unary .minus (.output (named "s") (named "output") ⟨0, 0⟩) ⟨0, 0⟩) :=
        .unary _ _ (.output _ _ _) rfl
      have hgain : Expr.Proper
          (.construction ⟨named "Gain", none, [⟨none, .name (named "depth")⟩], ⟨0, 0⟩⟩) :=
        .construction _ _ _ (by simpa using .name _) (by decide)
      exact ⟨.mapping _ _ hsigned rfl (.name _) (.name _), hgain, .socket _ _ _,
        fun e he => (by cases he)⟩
    · exact ⟨by decide, by decide⟩
    · simp only [List.cons_append, List.nil_append, List.forall_mem_cons]
      exact ⟨.name _, .name _, fun e he => (by cases he)⟩
    · exact ⟨by decide, by decide⟩
  have hb : tremolo.HasOneBlock :=
    ⟨tremolo.lines.take 1, (tremolo.lines.drop 1).take 2, tremolo.lines.drop 3, rfl, by decide,
      by decide, by decide⟩
  have hn : ∀ line ∈ tremolo.lines, line.statement.nesting < nestingLimit := by decide
  have hts : (Token.scan tremoloText).map Token.kind = tremolo.kinds := by cbv
  exact ⟨hp, hb, hn, hts, ofTokens_of_kinds hp hb hn hts⟩

end Patchbay.Program
