import Patchbay.Proofs.Program.ErrorFree

/-! Readers that tell how deeply they were entered again. Dropping what they tell leaves the readers
themselves, and whatever the tokens are, no more levels are open at a time than the limit allows. -/
namespace Patchbay.Program
variable {α β : Type} {ts us : List Token}

/-- A step and how many levels it was nested at most: how often, at one time, a reader had been
entered again from within a parenthesis, behind a sign or in an argument. -/
structure Leveled (ts : List Token) (α : Type) where
  step : Step ts α
  levels : Nat

namespace Leveled

/-- A step that enters no reader again. -/
def flat (s : Step ts α) : Leveled ts α := ⟨s, 0⟩

/-- One level down. -/
def entered (g : Leveled ts α) : Leveled ts α := { g with levels := g.levels + 1 }

def either (g : Leveled ts α)
    (next : α → (rest : List Token) → rest.length ≤ ts.length → Leveled rest β)
    (failed : Span → (rest : List Token) → rest.length ≤ ts.length → Leveled rest β) :
    Leveled ts β where
  step := g.step.either (fun value rest le => (next value rest le).step)
    fun span rest le => (failed span rest le).step
  levels := max g.levels <|
    match g.step.result with
    | .ok value => (next value g.step.rest g.step.le).levels
    | .error span => (failed span g.step.rest g.step.le).levels

def andThen (g : Leveled ts α)
    (next : α → (rest : List Token) → rest.length ≤ ts.length → Leveled rest β) : Leveled ts β :=
  g.either next fun span _ _ => flat (Step.failed span)

def orElse (g : Leveled ts α)
    (next : Span → (rest : List Token) → rest.length ≤ ts.length → Leveled rest α) :
    Leveled ts α :=
  g.either (fun value _ _ => flat (Step.done value)) next

def map (f : α → β) (g : Leveled ts α) : Leveled ts β := ⟨g.step.map f, g.levels⟩

def behind (h : ts.length ≤ us.length) (g : Leveled ts α) : Leveled us α :=
  ⟨g.step.behind h, g.levels⟩

def noting (faults : List (Located Fault)) (g : Leveled ts α) : Leveled ts α :=
  ⟨g.step.noting faults, g.levels⟩

mutual

def readExpr (stop : Span) (depth : Nat) (ts : List Token) : Leveled ts Link :=
  (readProduct stop depth ts).andThen fun left rest _ => readTerms stop depth left rest
termination_by 16 * ts.length + 5

def readTerms (stop : Span) (depth : Nat) (left : Link) (ts : List Token) : Leveled ts Link :=
  match ts with
  | [] => flat (.done left)
  | t :: rest =>
    match sumOp? t.kind with
    | none => flat (.done left)
    | some op =>
      ((readProduct stop depth rest).andThen fun right rest _ =>
        readTerms stop depth (.binary op left right) rest).behind Step.tail_le
termination_by 16 * ts.length

def readProduct (stop : Span) (depth : Nat) (ts : List Token) : Leveled ts Link :=
  (readFactor stop depth ts).andThen fun left rest _ => readFactors stop depth left rest
termination_by 16 * ts.length + 4

def readFactors (stop : Span) (depth : Nat) (left : Link) (ts : List Token) : Leveled ts Link :=
  match ts with
  | ⟨.operator .star, _⟩ :: rest =>
    ((readFactor stop depth rest).andThen fun right rest _ =>
      readFactors stop depth (.binary .multiply left right) rest).behind Step.tail_le
  | ts => flat (.done left)
termination_by 16 * ts.length

def readFactor (stop : Span) (depth : Nat) (ts : List Token) : Leveled ts Link :=
  (readOperand stop depth ts).andThen fun source rest _ => readMappings stop depth source rest
termination_by 16 * ts.length + 3

def readMappings (stop : Span) (depth : Nat) (source : Link) (ts : List Token) : Leveled ts Link :=
  match ts with
  | [] => flat (.done source)
  | t :: rest =>
    match polarity? t.kind with
    | none => flat (.done source)
    | some .unipolar =>
      ((readMapping .unipolar stop depth source rest).noting source.unreadable).behind
        Step.tail_le
    | some .bipolar =>
      (((flat (expect stop (.mark .openBracket) rest)).andThen fun _ rest _ =>
        readMapping .bipolar stop depth source rest).noting source.unreadable).behind
        Step.tail_le
termination_by 16 * ts.length

def readMapping (polarity : Polarity) (stop : Span) (depth : Nat) (source : Link)
    (ts : List Token) : Leveled ts Link :=
  ((readInterval stop depth ts).orElse fun span rest _ =>
    (flat (skipGroup stop rest)).map fun close => (.error span, .error span, close)).andThen
    fun (low, high, close) rest _ =>
      readMappings stop depth
        ⟨.mapping polarity source.expr low high (source.expr.span.join close), .source⟩ rest
termination_by 16 * ts.length + 7

-- The ends of an interval are read on the level of the source.
def readInterval (stop : Span) (depth : Nat) (ts : List Token) : Leveled ts (Expr × Expr × Span) :=
  (readExpr stop depth ts).andThen fun low rest _ =>
    (flat (expect stop (.mark .comma) rest)).andThen fun _ rest _ =>
      (readExpr stop depth rest).andThen fun high rest _ =>
        (flat (expect stop (.mark .closeBracket) rest)).map fun close =>
          (low.expr, high.expr, close)
termination_by 16 * ts.length + 6

def readOperand (stop : Span) (depth : Nat) (ts : List Token) : Leveled ts Link :=
  if nestingLimit ≤ depth then
    let span := (ts.head?.map Token.span).getD stop
    flat ((Step.failed span).noting [⟨.nestedTooDeeply, some span⟩])
  else readAtom stop (depth + 1) ts
termination_by 16 * ts.length + 2

def readAtom (stop : Span) (depth : Nat) (ts : List Token) : Leveled ts Link :=
  match ts with
  | ⟨.operator .plus, span⟩ :: rest => (readSigned .plus span stop depth rest).behind Step.tail_le
  | ⟨.operator .minus, span⟩ :: rest =>
    (readSigned .minus span stop depth rest).behind Step.tail_le
  | ⟨.number value unit, span⟩ :: rest =>
    flat ⟨.ok ⟨.number value unit span, .source⟩, [], rest, Step.tail_le⟩
  | ⟨.mark .openParen, span⟩ :: rest =>
    (((readExpr stop depth rest).entered.andThen fun inner rest _ =>
      (flat (expect stop (.mark .closeParen) rest)).map fun close =>
        ⟨inner.expr.withSpan (span.join close), inner.direction⟩).orElse fun _ rest _ =>
      (flat (skipGroup stop rest)).map fun close => .error (span.join close)).behind Step.tail_le
  | ⟨.keyword .new, span⟩ :: rest =>
    ((flat (readIdent stop rest)).andThen fun className rest _ =>
      (readArgs stop depth rest).map fun (args, close) =>
        ⟨.construction ⟨className, none, args, span.join close⟩, .both⟩).behind Step.tail_le
  | ⟨.name object, span⟩ :: ⟨.mark .dot, _⟩ :: rest =>
    ((flat (readIdent stop rest)).map fun socket =>
      ⟨.socket ⟨object, span⟩ socket (span.join socket.span), .sink⟩).behind
      (by simp only [List.length_cons]; omega)
  | ⟨.name object, span⟩ :: ⟨.mark .colon, _⟩ :: rest =>
    ((flat (readIdent stop rest)).map fun output =>
      ⟨.output ⟨object, span⟩ output (span.join output.span), .source⟩).behind
      (by simp only [List.length_cons]; omega)
  | ⟨.name className, span⟩ :: ⟨.name name, nameSpan⟩ :: ⟨.mark .openParen, bracket⟩ :: rest =>
    ((readArgs stop depth (⟨.mark .openParen, bracket⟩ :: rest)).map fun (args, close) =>
      ⟨.construction ⟨⟨className, span⟩, some ⟨name, nameSpan⟩, args, span.join close⟩,
        .both⟩).behind (by simp only [List.length_cons]; omega)
  | ⟨.name name, span⟩ :: rest => flat ⟨.ok ⟨.name ⟨name, span⟩, .both⟩, [], rest, Step.tail_le⟩
  | ts => flat (unexpected stop ts)
termination_by 16 * ts.length + 1

def readSigned (sign : Sign) (span stop : Span) (depth : Nat) (ts : List Token) :
    Leveled ts Link :=
  (readFactor stop depth ts).entered.andThen fun operand _ _ =>
    flat ((Step.done (.signed sign span operand)).noting operand.unreadable)
termination_by 16 * ts.length + 4

def readArgs (stop : Span) (depth : Nat) (ts : List Token) :
    Leveled ts (List (Arg Expr) × Span) :=
  (flat (expect stop (.mark .openParen) ts)).andThen fun _ rest _ => readOpenArgs stop depth rest
termination_by 16 * ts.length + 9

def readOpenArgs (stop : Span) (depth : Nat) (ts : List Token) :
    Leveled ts (List (Arg Expr) × Span) :=
  match ts with
  | ⟨.mark .closeParen, span⟩ :: rest => flat ⟨.ok ([], span), [], rest, Step.tail_le⟩
  | ts => readArgList stop depth [] ts
termination_by 16 * ts.length + 8

def readArgList (stop : Span) (depth : Nat) (done : List (Arg Expr)) (ts : List Token) :
    Leveled ts (List (Arg Expr) × Span) :=
  (readArg stop depth ts).either
    (fun arg rest _ =>
      match rest with
      | ⟨.mark .comma, _⟩ :: rest => (readArgList stop depth (arg :: done) rest).behind Step.tail_le
      | ⟨.mark .closeParen, span⟩ :: rest =>
        flat ⟨.ok ((arg :: done).reverse, span), [], rest, Step.tail_le⟩
      | rest =>
        (flat (unexpected stop rest)).orElse fun _ rest _ =>
          (flat (skipGroup stop rest)).map fun close => ((arg :: done).reverse, close))
    (fun span rest _ =>
      (flat (skipGroup stop rest)).map fun close => ((⟨none, .error span⟩ :: done).reverse, close))
termination_by 16 * ts.length + 7

def readArg (stop : Span) (depth : Nat) (ts : List Token) : Leveled ts (Arg Expr) :=
  match ts with
  | ⟨.mark .dot, _⟩ :: rest =>
    ((flat (readIdent stop rest)).andThen fun socket rest _ =>
      (flat (expect stop (.operator .assign) rest)).andThen fun _ rest _ =>
        (readExpr stop depth rest).entered.andThen fun value _ _ =>
          flat ((Step.done ⟨some ⟨socket, socket.span.join value.expr.span⟩, value.expr⟩).noting
            value.unreadable)).behind Step.tail_le
  | ts =>
    (readExpr stop depth ts).entered.andThen fun value _ _ =>
      flat ((Step.done ⟨none, value.expr⟩).noting value.unreadable)
termination_by 16 * ts.length + 6
decreasing_by
  all_goals try simp only [List.length_cons] at *
  all_goals omega

end

def readLinks (backward : Bool) (stop : Span) (ts : List Token) : Leveled ts (List Link) :=
  match ts with
  | [] => flat (.done [])
  | t :: rest =>
    if isArrow backward t then
      ((readExpr stop 0 rest).andThen fun link rest _ =>
        (readLinks backward stop rest).map (link :: ·)).behind Step.tail_le
    else flat (.done [])
termination_by ts.length

def readChain (backward : Bool) (stop : Span) (first : Link) (ts : List Token) :
    Leveled ts Statement :=
  (readExpr stop 0 ts).andThen fun second rest _ =>
    (readLinks backward stop rest).andThen fun more _ _ =>
      let (chain, faults) := chainOf backward first second more
      flat ((Step.done chain).noting faults)

def readRouting (stop : Span) (ts : List Token) : Leveled ts Statement :=
  (readExpr stop 0 ts).andThen fun first rest _ =>
    match rest with
    | ⟨.operator .arrow, _⟩ :: rest => (readChain false stop first rest).behind Step.tail_le
    | ⟨.operator .backArrow, _⟩ :: rest => (readChain true stop first rest).behind Step.tail_le
    | _ =>
      match first.expr with
      | .construction c => flat (.done (.construction c))
      | other =>
        flat ((Step.done (.error other.span)).noting [⟨.unexpectedExpression, some other.span⟩])

def readStatement (stop : Span) (ts : List Token) : Leveled ts Statement :=
  match ts with
  | ⟨.name name, span⟩ :: ⟨.operator .assign, _⟩ :: rest =>
    (((readExpr stop 0 rest).map fun value =>
      .definition ⟨name, span⟩ value.expr (span.join value.expr.span)).behind
        Step.tail_le).behind Step.tail_le
  | ts => readRouting stop ts

/-- The reading of the lines, and how many levels it was nested at most. -/
def readLines (stop : Span) (block : Block) (ts : List Token) : Reading × Nat :=
  match ts with
  | [] =>
    match block.opened with
    | none => (⟨⟨[]⟩, []⟩, 0)
    | some span => (⟨⟨[]⟩, [⟨.unclosedVoiceBlock, some span⟩]⟩, 0)
  | ⟨.keyword .startVoice, span⟩ :: rest =>
    let (block, faults) := block.start span
    let (reading, levels) := readLines stop block rest
    (reading.behind [] faults, levels)
  | ⟨.keyword .endVoice, span⟩ :: rest =>
    let (block, faults) := block.close span
    let (reading, levels) := readLines stop block rest
    (reading.behind [] faults, levels)
  | t :: rest =>
    let g := readStatement stop (t :: rest)
    let statement :=
      match g.step.result with
      | .ok statement => statement
      | .error span => .error span
    if _used : g.step.rest.length ≤ rest.length then
      let (reading, levels) := readLines stop block g.step.rest
      (reading.behind [⟨block.scope, statement⟩] g.step.faults, max g.levels levels)
    else
      let (reading, levels) := readLines stop block rest
      (reading.behind [⟨block.scope, statement⟩] g.step.faults, max g.levels levels)
termination_by ts.length
decreasing_by
  all_goals simp +zetaDelta only [List.length_cons] at *; omega

/-- The program that a token list holds, and how many levels reading it was nested at most. -/
def ofTokens (ts : List Token) : Reading × Nat :=
  let stop := (ts.getLast?.map fun t => t.span.stop).getD 0
  readLines ⟨stop, stop⟩ ⟨none, false⟩ ts

end Leveled

/-- What is told of a step: that it is this one, and that it was nested no deeper than so. -/
structure Tracks (limit : Nat) (g : Leveled ts α) (s : Step ts α) : Prop where
  step : g.step = s
  le : g.levels ≤ limit

section Laws
variable {limit : Nat} {g : Leveled ts α} {s : Step ts α}

theorem tracks_flat (s : Step ts α) : Tracks limit (.flat s) s := ⟨rfl, Nat.zero_le _⟩

theorem Tracks.entered (h : Tracks limit g s) : Tracks (limit + 1) g.entered s :=
  ⟨h.step, Nat.succ_le_succ h.le⟩

theorem Tracks.mono (h : Tracks limit g s) {limit' : Nat} (hle : limit ≤ limit') :
    Tracks limit' g s := ⟨h.step, Nat.le_trans h.le hle⟩

theorem Tracks.either (h : Tracks limit g s)
    {next : α → (rest : List Token) → rest.length ≤ ts.length → Leveled rest β}
    {failed : Span → (rest : List Token) → rest.length ≤ ts.length → Leveled rest β}
    {next' : α → (rest : List Token) → rest.length ≤ ts.length → Step rest β}
    {failed' : Span → (rest : List Token) → rest.length ≤ ts.length → Step rest β}
    (hn : ∀ value rest le, Tracks limit (next value rest le) (next' value rest le))
    (hf : ∀ span rest le, Tracks limit (failed span rest le) (failed' span rest le)) :
    Tracks limit (g.either next failed) (s.either next' failed') := by
  obtain ⟨rfl, hle⟩ := h
  refine ⟨?_, Nat.max_le.mpr ⟨hle, ?_⟩⟩
  · have hnext : (fun value rest le => (next value rest le).step) = next' :=
      funext fun value => funext fun rest => funext fun le => (hn value rest le).step
    have hfailed : (fun span rest le => (failed span rest le).step) = failed' :=
      funext fun span => funext fun rest => funext fun le => (hf span rest le).step
    rw [← hnext, ← hfailed]
    rfl
  · split
    · exact (hn _ _ _).le
    · exact (hf _ _ _).le

theorem Tracks.andThen (h : Tracks limit g s)
    {next : α → (rest : List Token) → rest.length ≤ ts.length → Leveled rest β}
    {next' : α → (rest : List Token) → rest.length ≤ ts.length → Step rest β}
    (hn : ∀ value rest le, Tracks limit (next value rest le) (next' value rest le)) :
    Tracks limit (g.andThen next) (s.andThen next') := h.either hn fun _ _ _ => tracks_flat _

theorem Tracks.orElse (h : Tracks limit g s)
    {next : Span → (rest : List Token) → rest.length ≤ ts.length → Leveled rest α}
    {next' : Span → (rest : List Token) → rest.length ≤ ts.length → Step rest α}
    (hn : ∀ span rest le, Tracks limit (next span rest le) (next' span rest le)) :
    Tracks limit (g.orElse next) (s.orElse next') := h.either (fun _ _ _ => tracks_flat _) hn

theorem Tracks.map (h : Tracks limit g s) (f : α → β) : Tracks limit (g.map f) (s.map f) :=
  ⟨congrArg (Step.map f) h.step, h.le⟩

theorem Tracks.behind (h : Tracks limit g s) (le : ts.length ≤ us.length) :
    Tracks limit (g.behind le : Leveled us α) (s.behind le) :=
  ⟨congrArg (Step.behind le) h.step, h.le⟩

theorem Tracks.noting (h : Tracks limit g s) (faults : List (Located Fault)) :
    Tracks limit (g.noting faults) (s.noting faults) := ⟨congrArg (Step.noting faults) h.step, h.le⟩

end Laws

mutual

/-- From a depth on so many levels are left, for an expression and all that is read inside it. -/
theorem tracks_readExpr (stop : Span) (depth : Nat) (ts : List Token) :
    Tracks (nestingLimit - depth) (Leveled.readExpr stop depth ts) (readExpr stop depth ts) := by
  rw [Leveled.readExpr, readExpr]
  exact (tracks_readProduct stop depth ts).andThen fun left rest _ =>
    tracks_readTerms stop depth left rest
termination_by 16 * ts.length + 5

private theorem tracks_readTerms (stop : Span) (depth : Nat) (left : Link) (ts : List Token) :
    Tracks (nestingLimit - depth) (Leveled.readTerms stop depth left ts)
      (readTerms stop depth left ts) := by
  cases ts with
  | nil =>
    rw [Leveled.readTerms.eq_def, readTerms.eq_def]
    exact tracks_flat _
  | cons t tail =>
    rw [Leveled.readTerms.eq_def, readTerms.eq_def]
    dsimp only
    cases sumOp? t.kind with
    | none => exact tracks_flat _
    | some op =>
      refine Tracks.behind ((tracks_readProduct stop depth tail).andThen fun right rest _ => ?_) _
      exact tracks_readTerms stop depth (.binary op left right) rest
termination_by 16 * ts.length

private theorem tracks_readProduct (stop : Span) (depth : Nat) (ts : List Token) :
    Tracks (nestingLimit - depth) (Leveled.readProduct stop depth ts)
      (readProduct stop depth ts) := by
  rw [Leveled.readProduct, readProduct]
  exact (tracks_readFactor stop depth ts).andThen fun left rest _ =>
    tracks_readFactors stop depth left rest
termination_by 16 * ts.length + 4

private theorem tracks_readFactors (stop : Span) (depth : Nat) (left : Link) (ts : List Token) :
    Tracks (nestingLimit - depth) (Leveled.readFactors stop depth left ts)
      (readFactors stop depth left ts) := by
  rw [Leveled.readFactors.eq_def]
  split
  · next span tail =>
    rw [readFactors]
    refine Tracks.behind ((tracks_readFactor stop depth tail).andThen fun right rest _ => ?_) _
    exact tracks_readFactors stop depth (.binary .multiply left right) rest
  · next hstar =>
    rw [readFactors.eq_2 _ _ _ _ hstar]
    exact tracks_flat _
termination_by 16 * ts.length
decreasing_by all_goals (subst_vars; simp only [List.length_cons] at *; omega)

private theorem tracks_readFactor (stop : Span) (depth : Nat) (ts : List Token) :
    Tracks (nestingLimit - depth) (Leveled.readFactor stop depth ts) (readFactor stop depth ts) := by
  rw [Leveled.readFactor, readFactor]
  exact (tracks_readOperand stop depth ts).andThen fun source rest _ =>
    tracks_readMappings stop depth source rest
termination_by 16 * ts.length + 3

private theorem tracks_readMappings (stop : Span) (depth : Nat) (source : Link) (ts : List Token) :
    Tracks (nestingLimit - depth) (Leveled.readMappings stop depth source ts)
      (readMappings stop depth source ts) := by
  cases ts with
  | nil =>
    rw [Leveled.readMappings.eq_def, readMappings.eq_def]
    exact tracks_flat _
  | cons t tail =>
    rw [Leveled.readMappings.eq_def, readMappings.eq_def]
    dsimp only
    cases polarity? t.kind with
    | none => exact tracks_flat _
    | some polarity =>
      cases polarity with
      | unipolar => exact ((tracks_readMapping .unipolar stop depth source tail).noting _).behind _
      | bipolar =>
        refine (Tracks.noting ?_ _).behind _
        exact (tracks_flat (expect stop _ tail)).andThen fun _ rest _ =>
          tracks_readMapping .bipolar stop depth source rest
termination_by 16 * ts.length

private theorem tracks_readMapping (polarity : Polarity) (stop : Span) (depth : Nat) (source : Link)
    (ts : List Token) :
    Tracks (nestingLimit - depth) (Leveled.readMapping polarity stop depth source ts)
      (readMapping polarity stop depth source ts) := by
  rw [Leveled.readMapping, readMapping]
  refine Tracks.andThen ((tracks_readInterval stop depth ts).orElse fun span rest _ => ?_)
    fun i rest _ => ?_
  · exact (tracks_flat (skipGroup stop rest)).map _
  · exact tracks_readMappings stop depth _ rest
termination_by 16 * ts.length + 7

private theorem tracks_readInterval (stop : Span) (depth : Nat) (ts : List Token) :
    Tracks (nestingLimit - depth) (Leveled.readInterval stop depth ts)
      (readInterval stop depth ts) := by
  rw [Leveled.readInterval, readInterval]
  refine (tracks_readExpr stop depth ts).andThen fun low rest _ => ?_
  refine (tracks_flat (expect stop _ rest)).andThen fun _ rest _ => ?_
  refine (tracks_readExpr stop depth rest).andThen fun high rest _ => ?_
  exact (tracks_flat (expect stop _ rest)).map _
termination_by 16 * ts.length + 6

private theorem tracks_readOperand (stop : Span) (depth : Nat) (ts : List Token) :
    Tracks (nestingLimit - depth) (Leveled.readOperand stop depth ts)
      (readOperand stop depth ts) := by
  rw [Leveled.readOperand, readOperand]
  split
  · exact tracks_flat _
  · exact (tracks_readAtom stop (depth + 1) ts).mono (by omega)
termination_by 16 * ts.length + 2

-- The depth of an atom counts its own level, and the limit allows one more to be entered.
private theorem tracks_readAtom (stop : Span) (depth : Nat) (ts : List Token) :
    Tracks (nestingLimit - depth + 1) (Leveled.readAtom stop depth ts) (readAtom stop depth ts) := by
  rw [Leveled.readAtom.eq_def]
  split
  · next span tail =>
    rw [readAtom]
    exact (tracks_readSigned .plus span stop depth tail).behind _
  · next span tail =>
    rw [readAtom]
    exact (tracks_readSigned .minus span stop depth tail).behind _
  · rw [readAtom]
    exact tracks_flat _
  · next span tail =>
    rw [readAtom]
    refine Tracks.behind (Tracks.orElse ?_ fun _ rest _ => ?_) _
    · exact (tracks_readExpr stop depth tail).entered.andThen fun inner rest _ =>
        (tracks_flat (expect stop _ rest)).map _
    · exact (tracks_flat (skipGroup stop rest)).map _
  · next span tail =>
    rw [readAtom]
    refine Tracks.behind ((tracks_flat (readIdent stop tail)).andThen fun className rest _ => ?_) _
    exact (tracks_readArgs stop depth rest).map _
  · next tail =>
    rw [readAtom]
    exact ((tracks_flat (readIdent stop tail)).map _).behind _
  · next tail =>
    rw [readAtom]
    exact ((tracks_flat (readIdent stop tail)).map _).behind _
  · rw [readAtom]
    exact ((tracks_readArgs stop depth _).map _).behind _
  · next hdot hcolon hnew =>
    rw [readAtom.eq_9 _ _ _ _ _ hdot hcolon hnew]
    exact tracks_flat _
  · next hplus hminus hnumber hparen hnew hdot hcolon hcons hname =>
    rw [readAtom.eq_10 _ _ _ hplus hminus hnumber hparen hnew hdot hcolon hcons hname]
    exact tracks_flat _
termination_by 16 * ts.length + 1
decreasing_by all_goals (subst_vars; simp only [List.length_cons] at *; omega)

private theorem tracks_readSigned (sign : Sign) (span stop : Span) (depth : Nat) (ts : List Token) :
    Tracks (nestingLimit - depth + 1) (Leveled.readSigned sign span stop depth ts)
      (readSigned sign span stop depth ts) := by
  rw [Leveled.readSigned, readSigned]
  exact (tracks_readFactor stop depth ts).entered.andThen fun _ _ _ => tracks_flat _
termination_by 16 * ts.length + 4

private theorem tracks_readArgs (stop : Span) (depth : Nat) (ts : List Token) :
    Tracks (nestingLimit - depth + 1) (Leveled.readArgs stop depth ts) (readArgs stop depth ts) := by
  rw [Leveled.readArgs, readArgs]
  exact (tracks_flat (expect stop _ ts)).andThen fun _ rest _ => tracks_readOpenArgs stop depth rest
termination_by 16 * ts.length + 9

private theorem tracks_readOpenArgs (stop : Span) (depth : Nat) (ts : List Token) :
    Tracks (nestingLimit - depth + 1) (Leveled.readOpenArgs stop depth ts)
      (readOpenArgs stop depth ts) := by
  rw [Leveled.readOpenArgs.eq_def]
  split
  · rw [readOpenArgs]
    exact tracks_flat _
  · next hclose =>
    rw [readOpenArgs.eq_2 _ _ _ hclose]
    exact tracks_readArgList stop depth [] _
termination_by 16 * ts.length + 8

private theorem tracks_readArgList (stop : Span) (depth : Nat) (done : List (Arg Expr))
    (ts : List Token) :
    Tracks (nestingLimit - depth + 1) (Leveled.readArgList stop depth done ts)
      (readArgList stop depth done ts) := by
  rw [Leveled.readArgList, readArgList]
  refine (tracks_readArg stop depth ts).either (fun arg rest _ => ?_) fun span rest _ => ?_
  · have other : Tracks (nestingLimit - depth + 1) _ _ :=
      (tracks_flat (unexpected stop rest)).orElse fun _ rest _ =>
        (tracks_flat (skipGroup stop rest)).map fun close => ((arg :: done).reverse, close)
    -- Both readers go by the same token, so one case analysis opens them together.
    cases rest with
    | nil => exact other
    | cons t tail =>
      obtain ⟨kind, span⟩ := t
      cases kind with
      | mark mark =>
        cases mark with
        | comma => exact (tracks_readArgList stop depth (arg :: done) tail).behind _
        | closeParen => exact tracks_flat _
        | _ => exact other
      | _ => exact other
  · exact (tracks_flat (skipGroup stop rest)).map _
termination_by 16 * ts.length + 7

private theorem tracks_readArg (stop : Span) (depth : Nat) (ts : List Token) :
    Tracks (nestingLimit - depth + 1) (Leveled.readArg stop depth ts) (readArg stop depth ts) := by
  rw [Leveled.readArg.eq_def]
  split
  · next span tail =>
    rw [readArg]
    refine Tracks.behind ((tracks_flat (readIdent stop tail)).andThen fun socket rest _ => ?_) _
    refine (tracks_flat (expect stop _ rest)).andThen fun _ rest _ => ?_
    exact (tracks_readExpr stop depth rest).entered.andThen fun _ _ _ => tracks_flat _
  · next hdot =>
    rw [readArg.eq_2 _ _ _ hdot]
    exact (tracks_readExpr stop depth _).entered.andThen fun _ _ _ => tracks_flat _
termination_by 16 * ts.length + 6
decreasing_by all_goals (subst_vars; simp only [List.length_cons] at *; omega)

end

private theorem tracks_readLinks (backward : Bool) (stop : Span) (ts : List Token) :
    Tracks nestingLimit (Leveled.readLinks backward stop ts) (readLinks backward stop ts) := by
  rw [Leveled.readLinks.eq_def, readLinks.eq_def]
  cases ts with
  | nil => exact tracks_flat _
  | cons t tail =>
    dsimp only
    by_cases harrow : isArrow backward t
    · rw [if_pos harrow, if_pos harrow]
      refine Tracks.behind ((tracks_readExpr stop 0 tail).andThen fun link rest _ => ?_) _
      exact (tracks_readLinks backward stop rest).map _
    · rw [if_neg harrow, if_neg harrow]
      exact tracks_flat _
termination_by ts.length
decreasing_by all_goals (subst_vars; simp only [List.length_cons]; omega)

private theorem tracks_readChain (backward : Bool) (stop : Span) (first : Link) (ts : List Token) :
    Tracks nestingLimit (Leveled.readChain backward stop first ts)
      (readChain backward stop first ts) := by
  rw [Leveled.readChain, readChain]
  refine (tracks_readExpr stop 0 ts).andThen fun second rest _ => ?_
  exact (tracks_readLinks backward stop rest).andThen fun more _ _ => tracks_flat _

private theorem tracks_readRouting (stop : Span) (ts : List Token) :
    Tracks nestingLimit (Leveled.readRouting stop ts) (readRouting stop ts) := by
  rw [Leveled.readRouting, readRouting]
  refine (tracks_readExpr stop 0 ts).andThen fun first rest _ => ?_
  have hend : ∀ rest : List Token, Tracks nestingLimit
      (match first.expr with
        | .construction c => .flat (.done (.construction c))
        | other => .flat ((Step.done (.error other.span)).noting
            [⟨.unexpectedExpression, some other.span⟩]) : Leveled rest Statement)
      (match first.expr with
        | .construction c => .done (.construction c)
        | other => (Step.done (.error other.span)).noting
            [⟨.unexpectedExpression, some other.span⟩]) := by
    intro rest
    cases first.expr <;> exact tracks_flat _
  cases rest with
  | nil => exact hend []
  | cons t tail =>
    obtain ⟨kind, span⟩ := t
    cases kind with
    | operator o =>
      cases o with
      | arrow => exact (tracks_readChain false stop first tail).behind _
      | backArrow => exact (tracks_readChain true stop first tail).behind _
      | _ => exact hend _
    | _ => exact hend _

private theorem tracks_readStatement (stop : Span) (ts : List Token) :
    Tracks nestingLimit (Leveled.readStatement stop ts) (readStatement stop ts) := by
  rw [Leveled.readStatement.eq_def]
  split
  · next tail =>
    rw [readStatement]
    exact (((tracks_readExpr stop 0 tail).map _).behind Step.tail_le).behind Step.tail_le
  · next hassign =>
    rw [readStatement.eq_2 _ _ hassign]
    exact tracks_readRouting stop _

private theorem tracks_readLines (stop : Span) (block : Block) (ts : List Token) :
    (Leveled.readLines stop block ts).1 = readLines stop block ts ∧
      (Leveled.readLines stop block ts).2 ≤ nestingLimit := by
  fun_induction readLines stop block ts with
  | case1 block hb =>
    rw [Leveled.readLines.eq_def]
    dsimp only
    rw [hb]
    exact ⟨rfl, Nat.zero_le _⟩
  | case2 block span hb =>
    rw [Leveled.readLines.eq_def]
    dsimp only
    rw [hb]
    exact ⟨rfl, Nat.zero_le _⟩
  | case3 block span rest opened faults hs ih =>
    rw [Leveled.readLines.eq_def]
    dsimp only
    rw [hs]
    exact ⟨congrArg (Reading.behind · [] faults) ih.1, ih.2⟩
  | case4 block span rest closed faults hs ih =>
    rw [Leveled.readLines.eq_def]
    dsimp only
    rw [hs]
    exact ⟨congrArg (Reading.behind · [] faults) ih.1, ih.2⟩
  | case5 block t rest hs he step statement hu ih =>
    obtain ⟨hstep, hle⟩ := tracks_readStatement stop (t :: rest)
    rw [Leveled.readLines.eq_4 _ _ _ _ hs he]
    rw [hstep, dif_pos (show (readStatement stop (t :: rest)).rest.length ≤ rest.length from hu)]
    exact ⟨congrArg (Reading.behind · _ _) ih.1, Nat.max_le.mpr ⟨hle, ih.2⟩⟩
  | case6 block t rest hs he step statement hu ih =>
    obtain ⟨hstep, hle⟩ := tracks_readStatement stop (t :: rest)
    rw [Leveled.readLines.eq_4 _ _ _ _ hs he]
    rw [hstep, dif_neg (show ¬ (readStatement stop (t :: rest)).rest.length ≤ rest.length from hu)]
    exact ⟨congrArg (Reading.behind · _ _) ih.1, Nat.max_le.mpr ⟨hle, ih.2⟩⟩

/-- Whatever the tokens are, while they are read no reader is entered again from within parentheses,
behind signs and in arguments more often at a time than the limit allows. -/
theorem leveled_ofTokens (ts : List Token) :
    (Leveled.ofTokens ts).1 = ofTokens ts ∧ (Leveled.ofTokens ts).2 ≤ nestingLimit :=
  tracks_readLines _ _ ts

end Patchbay.Program
