import Patchbay.Proofs.Program.Precedence

/-! What a parser does is what the readers do with the tokens that are left. From any state each of
its functions comes to an end, further on by what was read, with the faults found there and at the
same depth. -/
namespace Patchbay.Program
variable {α β : Type} {ts us : List Token}

namespace Parser
variable {s s' : Parser} {stop : Span} {depth : Nat}

/-- A parser with so many tokens behind it, and with more faults. -/
def after (s : Parser) (count : Nat) (faults : List (Located Fault)) : Parser :=
  { s with position := s.position + count, faults := s.faults ++ faults }

/-- What a parser has in front of it, and how deep it is. -/
structure At (s : Parser) (stop : Span) (depth : Nat) (ts : List Token) : Prop where
  stop : s.stop = stop
  depth : s.depth = depth
  rest : s.rest = ts

theorem rest_after (s : Parser) (count : Nat) (faults : List (Located Fault)) :
    (s.after count faults).rest = s.rest.drop count := by
  rw [rest, rest, List.drop_drop]
  rfl

theorem At.after (h : s.At stop depth ts) (count : Nat) (faults : List (Located Fault)) :
    (s.after count faults).At stop depth (ts.drop count) :=
  ⟨h.stop, h.depth, (s.rest_after count faults).trans (h.rest ▸ rfl)⟩

theorem At.tail {t : Token} (h : s.At stop depth (t :: ts)) : (s.after 1 []).At stop depth ts :=
  h.after 1 []

theorem At.one_le {t : Token} (h : s.At stop depth (t :: ts)) : 1 ≤ s.rest.length := by
  rw [h.rest]
  exact Nat.le_add_left _ _

theorem after_after (s : Parser) (count more : Nat) (faults others : List (Located Fault)) :
    (s.after count faults).after more others = s.after (count + more) (faults ++ others) := by
  rw [after, after, after, List.append_assoc, Nat.add_assoc]

theorem At.advance {t : Token} (h : s.At stop depth (t :: ts)) : s.advance = s.after 1 [] := by
  have hlt : s.position < s.tokens.length := by
    apply Nat.lt_of_not_le
    intro hle
    have hnil := List.drop_eq_nil_of_le hle
    exact absurd (h.rest.symm.trans hnil) (List.cons_ne_nil t ts)
  rw [Parser.advance, if_pos hlt, Parser.after, List.append_nil]

theorem note_eq (s : Parser) (faults : List (Located Fault)) : s.note faults = s.after 0 faults :=
  rfl

theorem after_zero (s : Parser) : s.after 0 [] = s := by
  rw [Parser.after, List.append_nil]
  rfl

/-- An outcome that reads what a step reads. -/
def Runs (s : Parser) (outcome : Option (Parsed α)) (step : Step ts α) : Prop :=
  ∃ count ≤ s.rest.length, outcome = some (step.result, s.after count step.faults) ∧
    step.rest = s.rest.drop count

/-- The outcome of what cannot fail, as that of what can. -/
def sure (outcome : Option (α × Parser)) : Option (Parsed α) :=
  outcome.map fun r => (.ok r.1, r.2)

/-- An outcome that reads what a step reads, which cannot fail. -/
def Yields (s : Parser) (outcome : Option (α × Parser)) (step : Step ts α) : Prop :=
  (∃ a, step.result = .ok a) ∧ Runs s (sure outcome) step

theorem Runs.here (h : s.At stop depth ts) (result : Except Span α) :
    Runs s (some (result, s)) (⟨result, [], ts, Nat.le_refl _⟩ : Step ts α) :=
  ⟨0, Nat.zero_le _, congrArg (fun s => some (result, s)) s.after_zero.symm, h.rest.symm⟩

/-- What is read behind so many tokens, and with faults noted before. -/
theorem Runs.from_after {count : Nat} {faults : List (Located Fault)}
    (hcount : count ≤ s.rest.length) {outcome : Option (Parsed α)} {step : Step ts α}
    {step' : Step us α} (h : Runs (s.after count faults) outcome step)
    (hresult : step'.result = step.result) (hfaults : step'.faults = faults ++ step.faults)
    (hrest : step'.rest = step.rest) : Runs s outcome step' := by
  obtain ⟨more, hmore, rfl, hdrop⟩ := h
  rw [rest_after, List.length_drop] at hmore
  refine ⟨count + more, by omega, ?_, ?_⟩
  · rw [after_after, hresult, hfaults]
  · rw [hrest, hdrop, rest_after, List.drop_drop]

theorem Runs.behind {t : Token} (h : s.At stop depth (t :: ts)) {outcome : Option (Parsed α)}
    {step : Step ts α} (hruns : Runs (s.after 1 []) outcome step) :
    Runs s outcome (step.behind Step.tail_le : Step (t :: ts) α) :=
  hruns.from_after h.one_le rfl rfl rfl

theorem Runs.behind_two {t u : Token} (h : s.At stop depth (t :: u :: ts))
    {outcome : Option (Parsed α)} {step : Step ts α}
    (hruns : Runs ((s.after 1 []).after 1 []) outcome step)
    (le : ts.length ≤ (t :: u :: ts).length) :
    Runs s outcome (step.behind le : Step (t :: u :: ts) α) :=
  .behind h (.behind h.tail hruns)

theorem Runs.noting {faults : List (Located Fault)} {outcome : Option (Parsed α)}
    {step : Step ts α} (h : Runs (s.after 0 faults) outcome step) :
    Runs s outcome (step.noting faults) :=
  h.from_after (Nat.zero_le _) rfl rfl rfl

theorem Runs.noted (h : s.At stop depth ts) (faults : List (Located Fault)) (a : α) :
    Runs s (some (.ok a, s.note faults)) ((Step.done a : Step ts α).noting faults) :=
  .noting (.here (h.after 0 faults) _)

section Bind
variable {x : Option (Parsed α)} {k : Parsed α → Option (Parsed β)} {step : Step ts α}
  (hs : s.At stop depth ts) (h : Runs s x step)
include hs h

/-- Both go on in one way from a value and in another from a failure. -/
theorem Runs.either {next : α → (rest : List Token) → rest.length ≤ ts.length → Step rest β}
    {failed : Span → (rest : List Token) → rest.length ≤ ts.length → Step rest β}
    (hok : ∀ a rest le s', s'.At stop depth rest → Runs s' (k (.ok a, s')) (next a rest le))
    (herror : ∀ span rest le s', s'.At stop depth rest →
      Runs s' (k (.error span, s')) (failed span rest le)) :
    Runs s (x >>= k) (step.either next failed) := by
  obtain ⟨result, faults, rest, le⟩ := step
  obtain ⟨count, hcount, rfl, rfl⟩ := h
  have hafter : (s.after count faults).At stop depth (s.rest.drop count) :=
    hs.rest ▸ hs.after count faults
  cases result with
  | ok a => exact (hok a _ le _ hafter).from_after hcount rfl rfl rfl
  | error span => exact (herror span _ le _ hafter).from_after hcount rfl rfl rfl

theorem Runs.andThen {next : α → (rest : List Token) → rest.length ≤ ts.length → Step rest β}
    (herror : ∀ span s', k (.error span, s') = some (.error span, s'))
    (hok : ∀ a rest le s', s'.At stop depth rest → Runs s' (k (.ok a, s')) (next a rest le)) :
    Runs s (x >>= k) (step.andThen next) := by
  refine Runs.either hs h hok fun span rest le s' hs' => ?_
  rw [herror]
  exact .here hs' _

omit hs in
theorem Runs.map {f : α → β} (herror : ∀ span s', k (.error span, s') = some (.error span, s'))
    (hok : ∀ a s', k (.ok a, s') = some (.ok (f a), s')) : Runs s (x >>= k) (step.map f) := by
  obtain ⟨count, hcount, rfl, hrest⟩ := h
  refine ⟨count, hcount, ?_, hrest⟩
  rw [Step.map]
  cases step.result with
  | ok a => exact hok a _
  | error span => exact herror span _

end Bind

section Yields
variable {x : Option (α × Parser)} {step : Step ts α} (hs : s.At stop depth ts)
  (h : Yields s x step)
include h

theorem Yields.outcome_eq : ∃ a, step.result = .ok a ∧ ∃ count ≤ s.rest.length,
    x = some (a, s.after count step.faults) ∧ step.rest = s.rest.drop count := by
  obtain ⟨⟨a, hresult⟩, count, hcount, houtcome, hrest⟩ := h
  obtain ⟨⟨a', s'⟩, hx, heq⟩ := Option.map_eq_some_iff.mp houtcome
  rw [hresult] at heq
  cases heq
  exact ⟨a', hresult, count, hcount, hx, hrest⟩

theorem Yields.map {k : α × Parser → Option (Parsed β)} {f : α → β}
    (hk : ∀ a s', k (a, s') = some (.ok (f a), s')) : Runs s (x >>= k) (step.map f) := by
  obtain ⟨a, hresult, count, hcount, rfl, hrest⟩ := h.outcome_eq
  refine ⟨count, hcount, ?_, hrest⟩
  rw [Step.map, hresult]
  exact hk a _

include hs

theorem Yields.andThen {k : α × Parser → Option (Parsed β)}
    {next : α → (rest : List Token) → rest.length ≤ ts.length → Step rest β}
    (hok : ∀ a rest le s', s'.At stop depth rest → Runs s' (k (a, s')) (next a rest le)) :
    Runs s (x >>= k) (step.andThen next) := by
  obtain ⟨a, hresult, count, hcount, rfl, hrest⟩ := h.outcome_eq
  obtain ⟨result, faults, rest, le⟩ := step
  subst hresult hrest
  have hafter : (s.after count faults).At stop depth (s.rest.drop count) :=
    hs.rest ▸ hs.after count faults
  exact (hok a _ le _ hafter).from_after hcount rfl rfl rfl

end Yields

/-- A parser fails where the readers fail, and notes the same fault. -/
theorem unexpected_eq (h : s.At stop depth ts) :
    ∃ span faults, s.unexpected = (span, s.after 0 faults) ∧
      ∀ β : Type, (Program.unexpected stop ts : Step ts β) =
        ⟨.error span, faults, ts, Nat.le_refl _⟩ := by
  rw [Parser.unexpected, h.rest]
  cases ts with
  | nil => exact ⟨stop, _, h.stop ▸ rfl, fun _ => rfl⟩
  | cons t rest => exact ⟨t.span, _, rfl, fun _ => rfl⟩

theorem runs_refuse (h : s.At stop depth ts) :
    Runs s s.refuse (Program.unexpected stop ts : Step ts α) := by
  obtain ⟨span, faults, hunexpected, hstep⟩ := unexpected_eq h
  rw [refuse, hunexpected, hstep]
  exact ⟨0, Nat.zero_le _, rfl, h.rest.symm⟩

theorem runs_expect (h : s.At stop depth ts) (kind : Token.Kind) :
    Runs s (s.expect kind) (Program.expect stop kind ts) := by
  rw [Parser.expect, h.rest]
  cases ts with
  | nil => exact runs_refuse h
  | cons t rest =>
    rw [Program.expect]
    dsimp only
    by_cases hkind : t.kind = kind
    · rw [if_pos hkind, if_pos hkind, h.advance]
      exact .behind h (.here h.tail _)
    · rw [if_neg hkind, if_neg hkind]
      exact runs_refuse h

theorem runs_ident (h : s.At stop depth ts) : Runs s s.ident (readIdent stop ts) := by
  rw [ident, h.rest]
  split
  · next name span rest =>
    rw [h.advance, readIdent]
    exact .behind h (.here h.tail _)
  · next hname =>
    rw [readIdent.eq_2 _ _ hname]
    exact runs_refuse h

theorem yields_skip (h : s.At stop depth ts) (last : Span) :
    Yields s (s.skip last) (skipGroup last ts) := by
  induction ts generalizing s last with
  | nil =>
    rw [skip, h.rest]
    exact ⟨⟨last, rfl⟩, .here h _⟩
  | cons t rest ih =>
    rw [skip, h.rest, h.advance, skipGroup]
    dsimp only
    split
    · exact ⟨⟨t.span, rfl⟩, .behind h (.here h.tail _)⟩
    · obtain ⟨hspan, hruns⟩ := ih h.tail t.span
      exact ⟨hspan, .behind h hruns⟩

theorem yields_recover (h : s.At stop depth ts) : Yields s s.recover (skipGroup stop ts) := by
  rw [recover, h.stop]
  exact yields_skip h stop

/-- Behind a token that should not be there the rest of the group is skipped. -/
theorem runs_giving_up (h : s.At stop depth ts) (f : Span → α) :
    Runs s (s.unexpected.2.recover >>= fun r => some (.ok (f r.1), r.2))
      ((Program.unexpected stop ts : Step ts α).orElse fun _ rest _ =>
        (skipGroup stop rest).map f) := by
  obtain ⟨span, faults, hunexpected, hstep⟩ := unexpected_eq h
  have hruns : Runs (s.after 0 faults)
      ((s.after 0 faults).recover >>= fun r => some (.ok (f r.1), r.2))
      ((skipGroup stop ts).map f) := (yields_recover (h.after 0 faults)).map fun _ _ => rfl
  rw [hunexpected, hstep]
  exact hruns.from_after (Nat.zero_le _) rfl rfl rfl

theorem expect_eq {t : Token} (h : s.At stop depth (t :: ts)) {kind : Token.Kind}
    (hkind : t.kind = kind) : s.expect kind = some (.ok t.span, s.after 1 []) := by
  rw [Parser.expect, h.rest]
  dsimp only
  rw [if_pos hkind, h.advance]

section Recovery
variable {x : Option (Parsed α)} {step : Step ts α} {g : Span → Span → β}
  (hs : s.At stop depth ts) (h : Runs s x step)
include hs h

/-- What cannot be read is replaced behind the rest of its group. -/
theorem Runs.recovering {k : Parsed α → Option (Parsed β)} {f : α → β}
    (hok : ∀ a s', k (.ok a, s') = some (.ok (f a), s'))
    (herror : ∀ span s', k (.error span, s') =
      s'.recover >>= fun r => some (.ok (g span r.1), r.2)) :
    Runs s (x >>= k) ((step.map f).orElse fun span rest _ =>
      (skipGroup stop rest).map (g span)) := by
  have heither : ((step.map f).orElse fun span rest _ => (skipGroup stop rest).map (g span)) =
      step.either (fun a _ _ => .done (f a)) fun span rest _ =>
        (skipGroup stop rest).map (g span) := by
    obtain ⟨result, faults, rest, le⟩ := step
    cases result with
    | ok a => rfl
    | error span => rfl
  rw [heither]
  refine Runs.either hs h (fun a rest le s' hs' => ?_) fun span rest le s' hs' => ?_
  · rw [hok]
    exact .here hs' _
  · rw [herror]
    exact (yields_recover hs').map fun _ _ => rfl

theorem Yields.recovering {k : Parsed α → Option (α × Parser)} {g : Span → Span → α}
    (hok : ∀ a s', k (.ok a, s') = some (a, s'))
    (herror : ∀ span s', k (.error span, s') = s'.recover >>= fun r => some (g span r.1, r.2)) :
    Yields s (x >>= k) (step.orElse fun span rest _ => (skipGroup stop rest).map (g span)) := by
  obtain ⟨result, faults, rest, le⟩ := step
  obtain ⟨count, hcount, rfl, rfl⟩ := h
  have hafter : (s.after count faults).At stop depth (s.rest.drop count) :=
    hs.rest ▸ hs.after count faults
  cases result with
  | ok a =>
    have hk : (some (.ok a, s.after count faults) >>= k) = some (a, s.after count faults) := hok a _
    rw [hk]
    exact ⟨⟨a, rfl⟩, (Runs.here hafter (.ok a)).from_after hcount rfl rfl rfl⟩
  | error span =>
    obtain ⟨close, hclose, more, hmore, hrecover, hrest⟩ := (yields_recover hafter).outcome_eq
    have hmapped : ((skipGroup stop (s.rest.drop count)).map (g span)).result =
        .ok (g span close) := by
      rw [Step.map, hclose]
      rfl
    have hruns : Runs (s.after count faults)
        (sure (some (g span close,
          (s.after count faults).after more (skipGroup stop (s.rest.drop count)).faults)))
        ((skipGroup stop (s.rest.drop count)).map (g span)) :=
      ⟨more, hmore, hmapped ▸ rfl, hrest⟩
    have hk : (some (.error span, s.after count faults) >>= k) = some (g span close,
        (s.after count faults).after more (skipGroup stop (s.rest.drop count)).faults) :=
      (herror span _).trans (hrecover ▸ rfl)
    rw [hk]
    exact ⟨⟨g span close, hmapped⟩, hruns.from_after hcount rfl rfl rfl⟩

end Recovery

theorem kind_of_polarity {t : Token} (h : polarity? t.kind = some .unipolar) :
    t.kind = .mark .openBracket := by
  rw [polarity?.eq_def] at h
  split at h
  · cases h
  · assumption
  · cases h

-- By the measures of the readers: each call has fewer tokens in front of it or is lower in the
-- grammar.
mutual

theorem runs_binary {s : Parser} {stop : Span} {depth : Nat} {ts : List Token}
    (h : s.At stop depth ts) (least : Nat) :
    Runs s (s.binary least) (operands least stop depth ts) := by
  rw [binary, operands_eq]
  refine Runs.andThen h (runs_primary h) (fun _ _ => rfl) fun left rest _ s' hs' => ?_
  exact runs_climb hs' least left
termination_by 16 * ts.length + 4

theorem runs_climb {s : Parser} {stop : Span} {depth : Nat} {ts : List Token}
    (h : s.At stop depth ts) (least : Nat) (left : Link) :
    Runs s (s.climb least left) (joined least stop depth left ts) := by
  rw [climb, h.rest]
  cases ts with
  | nil =>
    rw [joined_nil]
    exact .here h _
  | cons t rest =>
    dsimp only
    cases hop : operator? t.kind with
    | none =>
      rw [joined_of_none hop]
      exact .here h _
    | some found =>
      obtain ⟨op, strength⟩ := found
      dsimp only
      by_cases hlt : strength < least
      · rw [if_pos hlt, joined_of_lt hop hlt]
        exact .here h _
      · rw [if_neg hlt, joined_of_le hop (Nat.le_of_not_lt hlt), h.advance]
        refine .behind h ?_
        exact Runs.andThen h.tail (runs_binary h.tail _) (fun _ _ => rfl) fun right _ _ s' hs' =>
          runs_climb hs' least _
termination_by 16 * ts.length
decreasing_by all_goals (subst_vars; simp only [List.length_cons]; omega)

theorem runs_primary {s : Parser} {stop : Span} {depth : Nat} {ts : List Token}
    (h : s.At stop depth ts) :
    Runs s s.primary (readFactor stop depth ts) := by
  rw [primary, readFactor]
  refine Runs.andThen h (runs_operand h) (fun _ _ => rfl) fun source rest _ s' hs' => ?_
  exact runs_mappings hs' source
termination_by 16 * ts.length + 3

theorem runs_mappings {s : Parser} {stop : Span} {depth : Nat} {ts : List Token}
    (h : s.At stop depth ts) (source : Link) :
    Runs s (s.mappings source) (readMappings stop depth source ts) := by
  rw [mappings, h.rest, readMappings.eq_def]
  cases ts with
  | nil => exact .here h _
  | cons t rest =>
    dsimp only
    cases hpolarity : polarity? t.kind with
    | none => exact .here h _
    | some polarity =>
      have hnoted : (s.after 0 source.unreadable).At stop depth (t :: rest) := h.after 0 _
      have hnext : (s.after 1 source.unreadable).At stop depth rest := h.after 1 _
      dsimp only
      rw [note_eq]
      -- A bracket is still to be read, the keyword of a bipolar range is not.
      cases polarity with
      | unipolar =>
        rw [if_neg (by decide), expect_eq hnoted (kind_of_polarity hpolarity), after_after,
          List.append_nil]
        exact (runs_mapping hnext .unipolar source).from_after h.one_le rfl rfl rfl
      | bipolar =>
        rw [if_pos rfl, hnoted.advance, after_after, List.append_nil]
        refine Runs.from_after h.one_le (Runs.andThen hnext (runs_expect hnext (.mark .openBracket))
          (fun _ _ => rfl) fun _ rest' _ s' hs' => ?_) rfl rfl rfl
        exact runs_mapping hs' .bipolar source
termination_by 16 * ts.length
decreasing_by all_goals (subst_vars; simp only [List.length_cons]; omega)

theorem runs_mapping {s : Parser} {stop : Span} {depth : Nat} {ts : List Token}
    (h : s.At stop depth ts) (polarity : Polarity) (source : Link) :
    Runs s (s.bracketed >>= fun x => match x with
        | ((low, high, close), s) => s.mappings
            ⟨.mapping polarity source.expr low high (source.expr.span.join close), .source⟩)
      (readMapping polarity stop depth source ts) := by
  rw [readMapping]
  refine Yields.andThen h (yields_bracketed h) fun ends rest _ s' hs' => ?_
  exact runs_mappings hs' _
termination_by 16 * ts.length + 7

theorem yields_bracketed {s : Parser} {stop : Span} {depth : Nat} {ts : List Token}
    (h : s.At stop depth ts) :
    Yields s s.bracketed ((readInterval stop depth ts).orElse fun span rest _ =>
      (skipGroup stop rest).map fun close => (.error span, .error span, close)) := by
  rw [bracketed]
  exact Yields.recovering h (runs_interval h) (fun _ _ => rfl) fun _ _ => rfl
termination_by 16 * ts.length + 6

theorem runs_interval {s : Parser} {stop : Span} {depth : Nat} {ts : List Token}
    (h : s.At stop depth ts) :
    Runs s s.interval (readInterval stop depth ts) := by
  rw [interval, readInterval]
  refine Runs.andThen h (runs_binary h 1) (fun _ _ => rfl) fun low rest _ s' hs' => ?_
  refine Runs.andThen hs' (runs_expect hs' _) (fun _ _ => rfl) fun _ rest' _ s' hs' => ?_
  refine Runs.andThen hs' (runs_binary hs' 1) (fun _ _ => rfl) fun high rest _ s' hs' => ?_
  exact (runs_expect hs' _).map (fun _ _ => rfl) fun _ _ => rfl
termination_by 16 * ts.length + 5

theorem runs_operand {s : Parser} {stop : Span} {depth : Nat} {ts : List Token}
    (h : s.At stop depth ts) :
    Runs s s.operand (readOperand stop depth ts) := by
  rw [operand, readOperand, h.rest, h.stop, h.depth]
  by_cases hdeep : nestingLimit ≤ depth
  · rw [if_pos hdeep, if_pos hdeep]
    exact .noting (.here (h.after 0 _) _)
  · have hdeeper : s.deeper.At stop (depth + 1) ts :=
      ⟨h.stop, congrArg (· + 1) h.depth, h.rest⟩
    obtain ⟨count, hcount, houtcome, hrest⟩ := runs_atom hdeeper
    rw [if_neg hdeep, if_neg hdeep, houtcome]
    exact ⟨count, hcount, rfl, hrest⟩
termination_by 16 * ts.length + 2

theorem runs_atom {s : Parser} {stop : Span} {depth : Nat} {ts : List Token}
    (h : s.At stop depth ts) :
    Runs s s.atom (readAtom stop depth ts) := by
  rw [atom, h.rest]
  split
  · next span rest =>
    rw [h.advance, readAtom]
    exact .behind h (runs_signed h.tail .plus span)
  · next span rest =>
    rw [h.advance, readAtom]
    exact .behind h (runs_signed h.tail .minus span)
  · next value unit span rest =>
    rw [h.advance, readAtom]
    exact .behind h (.here h.tail _)
  · next span rest =>
    rw [h.advance, readAtom]
    refine .behind h ?_
    have hinner : ((readExpr stop depth rest).andThen fun inner rest _ =>
          (Program.expect stop (.mark .closeParen) rest).map fun close =>
            Link.mk (inner.expr.withSpan (span.join close)) inner.direction) =
        ((readExpr stop depth rest).andThen fun inner rest _ =>
          (Program.expect stop (.mark .closeParen) rest).map fun close => (inner, close)).map
          fun inner => ⟨inner.1.expr.withSpan (span.join inner.2), inner.1.direction⟩ := by
      simp only [Step.andThen_map, Step.map_map]
      rfl
    rw [hinner]
    exact Runs.recovering h.tail (runs_parenthesized h.tail) (fun _ _ => rfl) fun _ _ => rfl
  · next span rest =>
    rw [h.advance, readAtom]
    refine .behind h ?_
    exact Runs.andThen h.tail (runs_ident h.tail) (fun _ _ => rfl) fun className rest _ s' hs' =>
      (runs_args hs').map (fun _ _ => rfl) fun _ _ => rfl
  · next object span dot rest =>
    rw [h.advance, h.tail.advance, readAtom]
    refine .behind_two h ?_ _
    exact (runs_ident h.tail.tail).map (fun _ _ => rfl) fun _ _ => rfl
  · next object span colon rest =>
    rw [h.advance, h.tail.advance, readAtom]
    refine .behind_two h ?_ _
    exact (runs_ident h.tail.tail).map (fun _ _ => rfl) fun _ _ => rfl
  · next className span name nameSpan bracket rest =>
    rw [h.advance, h.tail.advance, readAtom]
    refine .behind_two h ?_ _
    exact (runs_args h.tail.tail).map (fun _ _ => rfl) fun _ _ => rfl
  · next name span rest hdot hcolon hnew =>
    rw [h.advance, readAtom.eq_9 _ _ _ _ _ hdot hcolon hnew]
    exact .behind h (.here h.tail _)
  · next hplus hminus hnumber hparen hnew hdot hcolon hcons hname =>
    rw [readAtom.eq_10 _ _ _ hplus hminus hnumber hparen hnew hdot hcolon hcons hname]
    exact runs_refuse h
termination_by 16 * ts.length + 1
decreasing_by all_goals (subst_vars; simp only [List.length_cons]; omega)

theorem runs_signed {s : Parser} {stop : Span} {depth : Nat} {ts : List Token}
    (h : s.At stop depth ts) (sign : Sign) (span : Span) :
    Runs s (s.signed sign span) (readSigned sign span stop depth ts) := by
  rw [signed, readSigned]
  refine Runs.andThen h (runs_primary h) (fun _ _ => rfl) fun operand rest _ s' hs' => ?_
  exact .noted hs' _ _
termination_by 16 * ts.length + 4

theorem runs_parenthesized {s : Parser} {stop : Span} {depth : Nat} {ts : List Token}
    (h : s.At stop depth ts) :
    Runs s s.parenthesized ((readExpr stop depth ts).andThen fun inner rest _ =>
      (Program.expect stop (.mark .closeParen) rest).map fun close => (inner, close)) := by
  rw [parenthesized]
  refine Runs.andThen h (runs_binary h 1) (fun _ _ => rfl) fun inner rest _ s' hs' => ?_
  exact (runs_expect hs' _).map (fun _ _ => rfl) fun _ _ => rfl
termination_by 16 * ts.length + 5

theorem runs_args {s : Parser} {stop : Span} {depth : Nat} {ts : List Token}
    (h : s.At stop depth ts) :
    Runs s s.args (readArgs stop depth ts) := by
  rw [args, readArgs]
  refine Runs.andThen h (runs_expect h _) (fun _ _ => rfl) fun _ rest _ s' hs' => ?_
  dsimp only
  rw [hs'.rest]
  split
  · next span rest =>
    rw [hs'.advance, readOpenArgs]
    exact .behind hs' (.here hs'.tail _)
  · next hclose =>
    rw [readOpenArgs.eq_2 _ _ _ hclose]
    exact runs_argList hs' []
termination_by 16 * ts.length + 8

theorem runs_argList {s : Parser} {stop : Span} {depth : Nat} {ts : List Token}
    (h : s.At stop depth ts) (done : List (Arg Expr)) :
    Runs s (s.argList done) (readArgList stop depth done ts) := by
  rw [argList, readArgList]
  refine Runs.either h (runs_arg h) (fun arg rest _ s' hs' => ?_) fun span rest _ s' hs' => ?_
  · dsimp only
    rw [hs'.rest]
    split
    · next span rest hle =>
      rw [hs'.advance]
      exact .behind hs' (runs_argList hs'.tail _)
    · next span rest =>
      rw [hs'.advance]
      exact .behind hs' (.here hs'.tail _)
    · next hcomma hclose =>
      split
      · exact (hcomma _ _ rfl).elim
      · exact (hclose _ _ rfl).elim
      · exact runs_giving_up hs' _
  · exact (yields_recover hs').map fun _ _ => rfl
termination_by 16 * ts.length + 7
decreasing_by all_goals (subst_vars; try simp only [List.length_cons] at *; omega)

theorem runs_arg {s : Parser} {stop : Span} {depth : Nat} {ts : List Token}
    (h : s.At stop depth ts) :
    Runs s s.arg (readArg stop depth ts) := by
  rw [arg, h.rest]
  split
  · next span rest =>
    rw [h.advance, readArg]
    refine .behind h ?_
    refine Runs.andThen h.tail (runs_ident h.tail) (fun _ _ => rfl) fun socket rest _ s' hs' => ?_
    refine Runs.andThen hs' (runs_expect hs' _) (fun _ _ => rfl) fun _ rest _ s' hs' => ?_
    refine Runs.andThen hs' (runs_binary hs' 1) (fun _ _ => rfl) fun value rest _ s' hs' => ?_
    exact .noted hs' _ _
  · next hdot =>
    rw [readArg.eq_2 _ _ _ hdot]
    refine Runs.andThen h (runs_binary h 1) (fun _ _ => rfl) fun value rest _ s' hs' => ?_
    exact .noted hs' _ _
termination_by 16 * ts.length + 6
decreasing_by all_goals (subst_vars; try simp only [List.length_cons] at *; omega)

end

/-- The chain through links that were read, of which there are two at least. -/
def finished (backward : Bool) (first : Link) (others : List Link) (ts : List Token) :
    Step ts Statement :=
  match others with
  | [] => .failed first.expr.span
  | second :: more =>
    (Step.done (chainOf backward first second more).1).noting (chainOf backward first second more).2

theorem runs_finish (h : s.At stop depth ts) (backward : Bool) (first : Link) (others : List Link) :
    Runs s (s.finish backward first others) (finished backward first others ts) := by
  cases others with
  | nil => exact .here h _
  | cons second more =>
    rw [finish, finished]
    exact .noted h _ _

theorem runs_links {s : Parser} {stop : Span} {ts : List Token} (h : s.At stop 0 ts)
    (backward : Bool) (first : Link) (others : List Link) :
    Runs s (s.links backward first others) ((readLinks backward stop ts).andThen fun more rest _ =>
      finished backward first (others ++ more) rest) := by
  rw [links, h.rest]
  cases ts with
  | nil =>
    rw [readLinks, Step.done_andThen, List.append_nil]
    exact runs_finish h backward first others
  | cons t rest =>
    rw [readLinks]
    dsimp only
    by_cases harrow : isArrow backward t
    · rw [if_pos harrow, if_pos harrow, h.advance,
        Step.behind_andThen _ fun more rest => finished backward first (others ++ more) rest,
        Step.andThen_assoc _ _ fun more rest => finished backward first (others ++ more) rest]
      refine .behind h ?_
      refine Runs.andThen h.tail (runs_binary h.tail 1) (fun _ _ => rfl) fun link _ _ s' hs' => ?_
      have hlinks := runs_links hs' backward first (others ++ [link])
      rw [Step.map_andThen]
      simp only [List.append_assoc, List.singleton_append] at hlinks
      exact hlinks
    · rw [if_neg harrow, if_neg harrow, Step.done_andThen, List.append_nil]
      exact runs_finish h backward first others
termination_by ts.length
decreasing_by all_goals (subst_vars; simp only [List.length_cons]; omega)

/-- The links behind the first arrow make up the chain. -/
theorem readLinks_andThen {backward : Bool} {t : Token} (harrow : isArrow backward t)
    (first : Link) : ((readLinks backward stop (t :: ts)).andThen fun more rest _ =>
        finished backward first more rest) =
      (readChain backward stop first ts).behind Step.tail_le := by
  rw [readLinks, if_pos harrow, readChain,
    Step.behind_andThen _ fun more rest => finished backward first more rest,
    Step.andThen_assoc _ _ fun more rest => finished backward first more rest]
  simp only [Step.map_andThen]
  rfl

theorem runs_chain {t : Token} {backward : Bool} (h : s.At stop 0 (t :: ts))
    (harrow : isArrow backward t) (first : Link) :
    Runs s (s.links backward first [])
      ((readChain backward stop first ts).behind Step.tail_le : Step (t :: ts) Statement) :=
  readLinks_andThen harrow first ▸ runs_links h backward first []

/-- What a statement is that starts with an expression. -/
def routed (stop : Span) (first : Link) : (ts : List Token) → Step ts Statement
  | ⟨.operator .arrow, _⟩ :: rest => (readChain false stop first rest).behind Step.tail_le
  | ⟨.operator .backArrow, _⟩ :: rest => (readChain true stop first rest).behind Step.tail_le
  | _ =>
    match first.expr with
    | .construction c => .done (.construction c)
    | other => (Step.done (.error other.span)).noting [⟨.unexpectedExpression, some other.span⟩]

theorem readRouting_eq (stop : Span) (ts : List Token) :
    readRouting stop ts =
      (readExpr stop 0 ts).andThen fun first rest _ => routed stop first rest := by
  rw [readRouting]
  refine congrArg (Step.andThen _) (funext fun first => funext fun rest => funext fun _ => ?_)
  cases rest with
  | nil => rfl
  | cons t tail =>
    obtain ⟨kind, span⟩ := t
    cases kind with
    | operator o => cases o <;> rfl
    | _ => rfl

theorem runs_routing (h : s.At stop 0 ts) : Runs s s.routing (readRouting stop ts) := by
  rw [routing, readRouting_eq]
  refine Runs.andThen h (runs_binary h 1) (fun _ _ => rfl) fun first rest _ s' hs' => ?_
  dsimp only
  rw [hs'.rest]
  split
  · exact runs_chain hs' rfl first
  · exact runs_chain hs' rfl first
  · next hforward hback =>
    rw [routed.eq_3 _ _ _ hforward hback]
    obtain ⟨expr, direction⟩ := first
    cases expr with
    | construction c => exact .here hs' _
    | _ => exact .noted hs' _ _

theorem runs_statement (h : s.At stop 0 ts) : Runs s s.statement (readStatement stop ts) := by
  rw [statement, h.rest]
  split
  · next name span assign rest =>
    rw [h.advance, h.tail.advance, readStatement]
    refine .behind_two h ?_ _
    exact (runs_binary h.tail.tail 1).map (fun _ _ => rfl) fun _ _ => rfl
  · next hdefinition =>
    rw [readStatement.eq_2 _ _ hdefinition]
    exact runs_routing h

end Parser
end Patchbay.Program
