import Patchbay.Proofs.Program.Rounds

/-! Progress of the parser. From every state it comes to an end and never goes back; the depth is
restored, and whatever cannot be read is told. -/
namespace Patchbay.Program
variable {α β : Type} {ts us : List Token}

namespace Parser
variable {s s' : Parser} {stop : Span} {depth : Nat} {good : α → Prop}

/-- A step that uses up a token where it gives something. -/
def Shrinks (step : Step ts α) : Prop := ∀ a, step.result = .ok a → step.rest.length < ts.length

theorem shrinks_of_lt {step : Step ts α} (h : step.rest.length < ts.length) : Shrinks step :=
  fun _ _ => h

theorem shrinks_behind (step : Step ts α) {h : ts.length ≤ us.length}
    (hlt : ts.length < us.length) : Shrinks (step.behind h : Step us α) :=
  shrinks_of_lt (Nat.lt_of_le_of_lt step.le hlt)

theorem shrinks_unexpected (stop : Span) (ts : List Token) :
    Shrinks (Program.unexpected stop ts : Step ts α) := by
  cases ts with
  | nil => exact fun _ ha => by cases ha
  | cons t rest => exact fun _ ha => by cases ha

theorem shrinks_andThen {step : Step ts α} (h : Shrinks step)
    (next : α → (rest : List Token) → rest.length ≤ ts.length → Step rest β) :
    Shrinks (step.andThen next) := by
  obtain ⟨result, faults, rest, le⟩ := step
  cases result with
  | ok a => exact shrinks_of_lt (Nat.lt_of_le_of_lt (next a rest le).le (h a rfl))
  | error span => exact fun _ ha => by cases ha

theorem shrinks_readAtom (stop : Span) (depth : Nat) (ts : List Token) :
    Shrinks (readAtom stop depth ts) := by
  rw [readAtom.eq_def]
  split
  · exact shrinks_behind _ (Nat.lt_succ_self _)
  · exact shrinks_behind _ (Nat.lt_succ_self _)
  · exact shrinks_of_lt (Nat.lt_succ_self _)
  · exact shrinks_behind _ (Nat.lt_succ_self _)
  · exact shrinks_behind _ (Nat.lt_succ_self _)
  · exact shrinks_behind _ (by simp only [List.length_cons]; omega)
  · exact shrinks_behind _ (by simp only [List.length_cons]; omega)
  · exact shrinks_behind _ (by simp only [List.length_cons]; omega)
  · exact shrinks_of_lt (Nat.lt_succ_self _)
  · exact shrinks_unexpected stop _

theorem shrinks_readFactor (stop : Span) (depth : Nat) (ts : List Token) :
    Shrinks (readFactor stop depth ts) := by
  rw [readFactor]
  refine shrinks_andThen ?_ _
  rw [readOperand]
  split
  · exact fun _ ha => by cases ha
  · exact shrinks_readAtom stop (depth + 1) ts

/-- An expression that was read used up a token. -/
theorem position_lt_of_binary {least : Nat} {link : Link}
    (h : s.binary least = some (.ok link, s')) : s.position < s'.position := by
  have hshrinks : Shrinks (operands least s.stop s.depth s.rest) := by
    rw [operands_eq]
    exact shrinks_andThen (shrinks_readFactor s.stop s.depth s.rest) _
  obtain ⟨count, -, houtcome, hrest⟩ := runs_binary (s := s) ⟨rfl, rfl, rfl⟩ least
  rw [h] at houtcome
  obtain ⟨hresult, rfl⟩ := Prod.mk.inj (Option.some.inj houtcome)
  have hlt := hshrinks link hresult.symm
  rw [hrest, List.length_drop] at hlt
  have hpos : 0 < count := by omega
  exact Nat.lt_add_of_pos_right hpos

/-- The parser later on. It has not gone back, nor past the end, and is as deep as before; what was
noted stays noted. -/
structure Onward (s s' : Parser) : Prop where
  tokens : s'.tokens = s.tokens
  depth : s'.depth = s.depth
  forth : s.position ≤ s'.position
  within : s'.position ≤ max s.position s.tokens.length
  faults : s.faults <+: s'.faults

/-- The outcome of a function that ends. What it gives is good unless it noted a fault. -/
def Ends (s : Parser) (outcome : Option (α × Parser)) (good : α → Prop) : Prop :=
  ∃ a s', outcome = some (a, s') ∧ s.Onward s' ∧ (s'.faults = s.faults → good a)

theorem onward_after {count : Nat} (h : count ≤ s.rest.length) (faults : List (Located Fault)) :
    s.Onward (s.after count faults) where
  tokens := rfl
  depth := rfl
  forth := Nat.le_add_right _ _
  within := by
    rw [rest, List.length_drop] at h
    show s.position + count ≤ _
    omega
  faults := List.prefix_append _ _

theorem faults_eq_nil {count : Nat} {faults : List (Located Fault)}
    (h : (s.after count faults).faults = s.faults) : faults = [] := List.append_right_eq_self.mp h

theorem Comes.ends {x : Parser → Option (α × Parser)} {o : Outcome α}
    (h : Comes x s.stop s.depth s.rest o)
    (hgood : o.faults = [] → good o.value) : Ends s (x s) good :=
  ⟨_, _, h.eq s ⟨rfl, rfl, rfl⟩, onward_after h.le _, fun hsame => hgood (faults_eq_nil hsame)⟩

theorem Behaves.ends {x : Parser → Option (α × Parser)}
    (h : Behaves x s.stop s.depth s.rest good) : Ends s (x s) good := by
  obtain ⟨o, ho, hgood⟩ := h
  exact ho.ends hgood

theorem Runs.ends {outcome : Option (Parsed α)} {step : Step ts α}
    (h : Runs s outcome step) {good : Except Span α → Prop}
    (hgood : step.faults = [] → good step.result) : Ends s outcome good := by
  obtain ⟨count, hcount, houtcome, -⟩ := h
  exact ⟨_, _, houtcome, onward_after hcount _, fun hsame => hgood (faults_eq_nil hsame)⟩

theorem Yields.ends {outcome : Option (α × Parser)} {step : Step ts α}
    (h : Yields s outcome step) (hclean : Clean good step) : Ends s outcome good := by
  obtain ⟨a, hresult, count, hcount, houtcome, -⟩ := h.outcome_eq
  refine ⟨_, _, houtcome, onward_after hcount _, fun hsame => ?_⟩
  obtain ⟨a', ha', hgood⟩ := hclean (faults_eq_nil hsame)
  rw [hresult] at ha'
  cases ha'
  exact hgood

theorem ends_unexpected (s : Parser) : Ends s (some s.unexpected) fun _ => False := by
  obtain ⟨span, faults, hunexpected, hstep⟩ := unexpected_eq (s := s) ⟨rfl, rfl, rfl⟩
  refine ⟨_, _, congrArg some hunexpected, onward_after (Nat.zero_le _) _, fun hsame => ?_⟩
  have hclean : Clean (fun _ => True) (Program.unexpected s.stop s.rest : Step s.rest Span) :=
    clean_of_account ((errorless.survey s.stop).says_unexpected s.rest)
  rw [hstep] at hclean
  obtain ⟨_, herror, _⟩ := hclean (faults_eq_nil hsame)
  cases herror

/-- From this state every function ends, and what it gives has no error node unless a fault was
noted or something with an error node was handed to it. -/
structure AllEnd (s : Parser) : Prop where
  unexpected : Ends s (some s.unexpected) fun _ => False
  expect (kind : Token.Kind) : Ends s (s.expect kind) (Reads fun _ => True)
  ident : Ends s s.ident (Reads fun _ => True)
  skip (last : Span) : Ends s (s.skip last) fun _ => True
  recover : Ends s s.recover fun _ => True
  binary (least : Nat) : Ends s (s.binary least) (Reads GoodLink)
  climb (least : Nat) (left : Link) : Ends s (s.climb least left) fun r =>
    GoodLink left → Reads GoodLink r
  primary : Ends s s.primary (Reads GoodLink)
  mappings (source : Link) : Ends s (s.mappings source) fun r => GoodLink source → Reads GoodLink r
  bracketed : Ends s s.bracketed GoodInterval
  interval : Ends s s.interval (Reads GoodInterval)
  operand : Ends s s.operand (Reads GoodLink)
  atom : Ends s s.atom (Reads GoodLink)
  signed (sign : Sign) (span : Span) : Ends s (s.signed sign span) (Reads GoodLink)
  parenthesized : Ends s s.parenthesized (Reads fun inner => GoodLink inner.1)
  args : Ends s s.args (Reads GoodArgs)
  argList (done : List (Arg Expr)) : Ends s (s.argList done) fun r =>
    (∀ a ∈ done, a.value.ErrorFree) → Reads GoodArgs r
  arg : Ends s s.arg (Reads GoodArg)
  finish (backward : Bool) (first : Link) (others : List Link) :
    Ends s (s.finish backward first others) fun r =>
      others ≠ [] → GoodLinks (first :: others) → Reads Statement.ErrorFree r
  links (backward : Bool) (first : Link) (others : List Link) :
    Ends s (s.links backward first others) fun r => (others = [] → AtArrow backward s.rest) →
      GoodLinks (first :: others) → Reads Statement.ErrorFree r
  routing : Ends s s.routing (Reads Statement.ErrorFree)
  statement : Ends s s.statement (Reads Statement.ErrorFree)

theorem clean_joined (least : Nat) (stop : Span) (depth : Nat) {left : Link} (ts : List Token)
    (h : GoodLink left) : Clean GoodLink (joined least stop depth left ts) := by
  have hleft : (errorless.survey stop).product depth [] ts ts left := h
  have hfactors := (errorless.survey stop).says_readFactors depth left ts hleft
  rw [joined]
  split
  · refine clean_of_account (hfactors.andThen fun left _ rest _ _ _ hread => ?_)
    have hsum := (errorless.survey stop).ofProduct hread
    exact (errorless.survey stop).says_readTerms depth left rest hsum
  · split
    · exact clean_of_account hfactors
    · exact fun _ => ⟨left, rfl, h⟩

theorem clean_skipGroup (last : Span) (ts : List Token) :
    Clean (fun _ => True) (skipGroup last ts) := by
  obtain ⟨-, -, close, hclose⟩ := Account.skipGroup_ok last ts
  exact fun _ => ⟨close, hclose, trivial⟩

private abbrev survey (s : Parser) : Survey s.stop := errorless.survey s.stop

theorem allEnd (s : Parser) : AllEnd s := by
  have hs : s.At s.stop s.depth s.rest := ⟨rfl, rfl, rfl⟩
  exact
    { unexpected := ends_unexpected s
      expect := fun kind => (runs_expect hs kind).ends
        (clean_of_account ((s.survey.says_expect kind s.rest).imp fun _ _ _ _ => trivial))
      ident := (runs_ident hs).ends
        (clean_of_account ((s.survey.says_readIdent s.rest).imp fun _ _ _ _ => trivial))
      skip := fun last => (yields_skip hs last).ends (clean_skipGroup last s.rest)
      recover := (yields_recover hs).ends (clean_skipGroup s.stop s.rest)
      binary := fun least =>
        (runs_binary hs least).ends (clean_operands least s.stop s.depth s.rest)
      climb := fun least left => (runs_climb hs least left).ends fun hfaults hleft =>
        clean_joined least s.stop s.depth s.rest hleft hfaults
      primary := (runs_primary hs).ends (clean_of_account (s.survey.says_readFactor s.depth s.rest))
      mappings := fun source => (runs_mappings hs source).ends fun hfaults hsource => by
        have hmapped : s.survey.mapped s.depth [] s.rest s.rest source := hsource
        exact clean_of_account (s.survey.says_readMappings s.depth source s.rest hmapped) hfaults
      bracketed := (yields_bracketed hs).ends (clean_of_account
        ((s.survey.says_readInterval s.depth s.rest).orElse fun hnone => hnone.elim))
      interval := (runs_interval hs).ends
        (clean_of_account (s.survey.says_readInterval s.depth s.rest))
      operand := (runs_operand hs).ends (clean_of_account
        ((s.survey.says_readOperand s.depth s.rest).imp fun _ _ _ h => h.2))
      atom := (runs_atom hs).ends (clean_of_account (s.survey.says_readAtom s.depth s.rest))
      signed := fun sign span => (runs_signed hs sign span).ends
        (clean_of_account (s.survey.says_readSigned sign span s.depth s.rest trivial))
      parenthesized := by
        refine (runs_parenthesized hs).ends (clean_of_account
          ((s.survey.says_readExpr s.depth s.rest).andThen fun inner _ rest _ _ _ hinner => ?_))
        exact (s.survey.says_expect _ rest).map fun _ _ _ _ _ => hinner
      args := (runs_args hs).ends (clean_of_account (s.survey.says_readArgs s.depth s.rest))
      argList := fun done => (runs_argList hs done).ends fun hfaults hdone => by
        refine clean_of_account ((s.survey.says_readArgList s.depth done s.rest).imp ?_) hfaults
        rintro _ _ as ⟨more, hargs, hmore⟩ a ha
        rw [hargs] at ha
        exact (List.mem_append.mp ha).elim (fun h => hdone a (List.mem_reverse.mp h)) (hmore a)
      arg := (runs_arg hs).ends (clean_of_account (s.survey.says_readArg s.depth s.rest))
      finish := fun backward first others =>
        (behaves_finish backward first others s.stop s.depth s.rest).ends
      links := fun backward first others =>
        (behaves_links backward first others s.stop s.depth s.rest).ends
      routing := (behaves_routing s.stop s.depth s.rest).ends
      statement := (behaves_statement s.stop s.depth s.rest).ends }

theorem readLines_nil (stop : Span) (block : Block) :
    readLines stop block [] = ⟨⟨[]⟩, unclosed block⟩ := by
  obtain ⟨opened, seen⟩ := block
  rw [readLines]
  cases opened with
  | none => rfl
  | some span => rfl

/-- The main loop ends and reads the lines that the tokens hold. -/
theorem comes_parse (stop : Span) (depth : Nat) (ts : List Token) :
    ∃ handled faults, Comes parse stop depth ts ⟨handled, ts.length, faults⟩ ∧
      handled.length ≤ ts.length ∧ ∀ s : Parser, s.At stop depth ts → depth = 0 →
        readLines stop ⟨none, false⟩ ts = ⟨⟨handled.reduceOption⟩, faults⟩ := by
  obtain ⟨new, after, faults, hnew, hrounds⟩ := comes_rounds stop depth ⟨none, false⟩ ts
  have hcomes := (hrounds []).bind ((comes_here new).noting (unclosed after))
    (k := fun r => some (r.1.2, r.2.note (unclosed r.1.1)))
  refine ⟨new, _, hcomes, hnew.le, fun s hs hdepth => ?_⟩
  rw [hnew.reading s hs hdepth, List.drop_length, readLines_nil]
  simp only [Reading.behind, List.append_nil]

/-- From every state every function of the parser ends, and never goes back. What it cannot read it
notes, and an expression uses up a token. A round of the main loop uses up a token too, and handles
one line or one keyword; what the rounds behind a boundary of statements handle depends on the
tokens left over and on the voice block only. -/
theorem parser_progresses :
    (∀ s : Parser, AllEnd s) ∧
    (∀ (s s' : Parser) (least : Nat) (link : Link),
      s.binary least = some (.ok link, s') → s.position < s'.position) ∧
    (∀ (s : Parser) (t : Token) (rest : List Token) (block : Block), s.rest = t :: rest →
      ∃ after line s', s.round t block = some ((after, line), s') ∧ s.Onward s' ∧
        s.position < s'.position) ∧
    (∀ (s : Parser) (block : Block) (handled : List (Option Line)),
      ∃ after new s', s.rounds block handled = some ((after, handled ++ new), s') ∧
        s.Onward s' ∧ s'.rest = [] ∧ new.length ≤ s.rest.length ∧
        (s'.faults = s.faults → ∀ line ∈ new.reduceOption, line.statement.ErrorFree)) ∧
    (∀ s : Parser, ∃ handled s', s.parse = some (handled, s') ∧ s.Onward s' ∧
      handled.length ≤ s.rest.length) ∧
    (∀ ts : List Token, ∃ handled s', (start ts).parse = some (handled, s') ∧
      ofTokens ts = ⟨⟨handled.reduceOption⟩, s'.faults⟩) ∧
    (∀ (ts us : List Token) (s u : Parser) (block : Block) (before others : List (Option Line)),
      Boundary ts s block before → Boundary us u block others → s.rest = u.rest →
        ∃ new found s' u',
          (start ts).parse = some (before ++ new, s') ∧ s'.faults = s.faults ++ found ∧
          (start us).parse = some (others ++ new, u') ∧ u'.faults = u.faults ++ found) := by
  refine ⟨allEnd, fun s s' least link h => position_lt_of_binary h, ?_, ?_, ?_, ?_, ?_⟩
  · intro s t rest block hrest
    obtain ⟨o, ho, hround⟩ := comes_round s.stop s.depth block t rest
    rw [← hrest] at ho
    exact ⟨_, _, _, ho.eq s ⟨rfl, rfl, rfl⟩, onward_after ho.le _,
      Nat.lt_add_of_pos_right hround.le⟩
  · intro s block handled
    obtain ⟨new, after, faults, hnew, hcomes⟩ := comes_rounds s.stop s.depth block s.rest
    refine ⟨after, new, _, (hcomes handled).eq s ⟨rfl, rfl, rfl⟩,
      onward_after (Nat.le_refl _) _, ?_, hnew.le, fun hsame => ?_⟩
    · rw [rest_after, List.drop_length]
    · exact hnew.errorFree (faults_eq_nil hsame)
  · intro s
    obtain ⟨handled, faults, hcomes, hle, -⟩ := comes_parse s.stop s.depth s.rest
    exact ⟨_, _, hcomes.eq s ⟨rfl, rfl, rfl⟩, onward_after hcomes.le _, hle⟩
  · intro ts
    obtain ⟨handled, faults, hcomes, -, hreading⟩ := comes_parse (start ts).stop 0 ts
    exact ⟨_, _, hcomes.eq _ (at_start ts), hreading _ (at_start ts) rfl⟩
  · intro ts us s u block before others hs hu hrest
    obtain ⟨new, after, count, faults, hcomes⟩ := rounds_alike hrest 0 block
    refine ⟨new, faults ++ unclosed after, _, _, hs.parse_eq (hcomes before).1, rfl,
      hu.parse_eq (hcomes others).2, rfl⟩

end Parser
end Patchbay.Program
