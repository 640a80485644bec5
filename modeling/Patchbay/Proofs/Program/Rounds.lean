import Mathlib.Data.List.ReduceOption
import Mathlib.Order.Lattice
import Patchbay.Proofs.Program.ErrorFree
import Patchbay.Proofs.Program.Running

/-! Rounds of the parser's main loop. An action comes to the same outcome in front of the same
tokens, whatever was read before; so the lines behind a boundary of statements depend on the tokens
that are left and on the voice block only. -/
namespace Patchbay.Program
variable {α β : Type} {ts us : List Token}

namespace Parser
variable {s s' : Parser} {stop : Span} {depth : Nat} {good : α → Prop} {good' : β → Prop}

/-- A value, how many tokens were used up for it and which faults were found. -/
structure Outcome (α : Type) where
  value : α
  count : Nat
  faults : List (Located Fault)

/-- In front of these tokens a function comes to this outcome, whatever was read before. -/
structure Comes (x : Parser → Option (α × Parser)) (stop : Span) (depth : Nat) (ts : List Token)
    (o : Outcome α) : Prop where
  le : o.count ≤ ts.length
  eq : ∀ s : Parser, s.At stop depth ts → x s = some (o.value, s.after o.count o.faults)

/-- A function comes to an outcome, and to something good if there are no faults. -/
def Behaves (x : Parser → Option (α × Parser)) (stop : Span) (depth : Nat) (ts : List Token)
    (good : α → Prop) : Prop := ∃ o, Comes x stop depth ts o ∧ (o.faults = [] → good o.value)

/-- Something good was read. -/
def Reads (good : α → Prop) (r : Except Span α) : Prop := ∃ a, r = .ok a ∧ good a

theorem reads_ok {a : α} : Reads good (.ok a) ↔ good a := by
  refine ⟨?_, fun h => ⟨a, rfl, h⟩⟩
  rintro ⟨a', ha', hgood⟩
  cases ha'
  exact hgood

theorem not_reads_error (span : Span) : ¬ Reads good (.error span : Except Span α) := by
  rintro ⟨a, ha, _⟩
  cases ha

theorem after_inj {count count' : Nat} {faults faults' : List (Located Fault)}
    (h : s.after count faults = s.after count' faults') : count = count' ∧ faults = faults' :=
  ⟨Nat.add_left_cancel (congrArg position h),
    List.append_cancel_left (congrArg Parser.faults h)⟩

section Laws
variable {x y : Parser → Option (α × Parser)} {k : α × Parser → Option (β × Parser)}
  {o : Outcome α}

theorem Comes.unique {o' : Outcome α} (h : Comes x stop depth ts o)
    (h' : Comes x stop depth ts o') (hs : s.At stop depth ts) : o = o' := by
  obtain ⟨value, count, faults⟩ := o
  obtain ⟨value', count', faults'⟩ := o'
  have heq := Option.some.inj ((h.eq s hs).symm.trans (h'.eq s hs))
  obtain ⟨rfl, hafter⟩ := Prod.mk.inj heq
  obtain ⟨rfl, rfl⟩ := after_inj hafter
  rfl

theorem Comes.of_eq (heq : ∀ s : Parser, s.At stop depth ts → x s = y s)
    (h : Comes y stop depth ts o) : Comes x stop depth ts o :=
  ⟨h.le, fun s hs => (heq s hs).trans (h.eq s hs)⟩

theorem Comes.bind {o' : Outcome β} (h : Comes x stop depth ts o)
    (hk : Comes (fun s => k (o.value, s)) stop depth (ts.drop o.count) o') :
    Comes (fun s => x s >>= k) stop depth ts
      ⟨o'.value, o.count + o'.count, o.faults ++ o'.faults⟩ := by
  have hle := hk.le
  rw [List.length_drop] at hle
  refine ⟨?_, fun s hs => ?_⟩
  · have := h.le
    show o.count + o'.count ≤ ts.length
    omega
  · have hrest := hk.eq _ (hs.after o.count o.faults)
    rw [after_after] at hrest
    rw [h.eq s hs]
    exact hrest

theorem Comes.advancing {t : Token} (h : Comes x stop depth ts o) :
    Comes (fun s => x s.advance) stop depth (t :: ts) ⟨o.value, 1 + o.count, o.faults⟩ := by
  refine ⟨Nat.add_comm .. ▸ Nat.succ_le_succ h.le, fun s hs => ?_⟩
  rw [hs.advance, h.eq _ hs.tail, after_after, List.nil_append]

theorem Comes.noting (faults : List (Located Fault)) (h : Comes x stop depth ts o) :
    Comes (fun s => x (s.note faults)) stop depth ts ⟨o.value, o.count, faults ++ o.faults⟩ := by
  refine ⟨h.le, fun s hs => ?_⟩
  rw [note_eq, h.eq _ (hs.after 0 faults), after_after, Nat.zero_add]

theorem comes_here (a : α) : Comes (fun s => some (a, s)) stop depth ts ⟨a, 0, []⟩ :=
  ⟨Nat.zero_le _, fun s _ => congrArg (fun s => some (a, s)) s.after_zero.symm⟩

theorem Behaves.mono {good' : α → Prop} (h : Behaves x stop depth ts good)
    (hgood : ∀ a, good a → good' a) : Behaves x stop depth ts good' := by
  obtain ⟨o, ho, hok⟩ := h
  exact ⟨o, ho, fun hfaults => hgood _ (hok hfaults)⟩

theorem Behaves.of_eq (heq : ∀ s : Parser, s.At stop depth ts → x s = y s)
    (h : Behaves y stop depth ts good) : Behaves x stop depth ts good := by
  obtain ⟨o, ho, hok⟩ := h
  exact ⟨o, ho.of_eq heq, hok⟩

theorem Behaves.bind (h : Behaves x stop depth ts good) (hk : ∀ a rest, rest.length ≤ ts.length →
      Behaves (fun s => k (a, s)) stop depth rest fun b => good a → good' b) :
    Behaves (fun s => x s >>= k) stop depth ts good' := by
  obtain ⟨o, ho, hok⟩ := h
  obtain ⟨o', ho', hok'⟩ := hk o.value (ts.drop o.count) (List.length_drop ▸ Nat.sub_le _ _)
  refine ⟨_, ho.bind ho', fun hfaults => ?_⟩
  obtain ⟨hnone, hnone'⟩ := List.append_eq_nil_iff.mp hfaults
  exact hok' hnone' (hok hnone)

theorem Behaves.advancing {t : Token} (h : Behaves x stop depth ts good) :
    Behaves (fun s => x s.advance) stop depth (t :: ts) good := by
  obtain ⟨o, ho, hok⟩ := h
  exact ⟨_, ho.advancing, hok⟩

theorem Behaves.behind {t : Token} (h : Behaves x stop depth ts good)
    (hk : ∀ a rest, rest.length ≤ ts.length →
      Behaves (fun s => k (a, s)) stop depth rest fun b => good a → good' b) :
    Behaves (fun s => x s.advance >>= k) stop depth (t :: ts) good' := (h.bind hk).advancing

theorem behaves_here {a : α} (h : good a) : Behaves (fun s => some (a, s)) stop depth ts good :=
  ⟨_, comes_here a, fun _ => h⟩

theorem behaves_noted {a : α} {faults : List (Located Fault)} (h : faults = [] → good a) :
    Behaves (fun s => some (a, s.note faults)) stop depth ts good :=
  ⟨_, (comes_here a).noting faults, fun hfaults => h (List.append_eq_nil_iff.mp hfaults).1⟩

end Laws

section Steps
variable {x : Parser → Option (Parsed α)} {step : Step ts α}

/-- What reads what a step reads does so from every state. -/
theorem comes_of_runs (hs : s.At stop depth ts)
    (h : ∀ s : Parser, s.At stop depth ts → Runs s (x s) step) :
    ∃ count, step.rest = ts.drop count ∧
      Comes x stop depth ts ⟨step.result, count, step.faults⟩ := by
  obtain ⟨count, hcount, -, hrest⟩ := h s hs
  rw [hs.rest] at hcount hrest
  refine ⟨count, hrest, hcount, fun s' hs' => ?_⟩
  obtain ⟨count', hcount', houtcome, hrest'⟩ := h s' hs'
  rw [hs'.rest] at hcount' hrest'
  have hlen := congrArg List.length (hrest.symm.trans hrest')
  rw [List.length_drop, List.length_drop] at hlen
  have hsame : count' = count := by omega
  rw [houtcome, hsame]

theorem behaves_of_runs (h : ∀ s : Parser, s.At stop depth ts → Runs s (x s) step)
    (hclean : Clean good step) : Behaves x stop depth ts (Reads good) := by
  by_cases hstate : ∃ s : Parser, s.At stop depth ts
  · obtain ⟨s, hs⟩ := hstate
    obtain ⟨count, -, hcomes⟩ := comes_of_runs hs h
    exact ⟨_, hcomes, hclean⟩
  · -- No state is in front of these tokens, so that any count will do.
    have hcomes : Comes x stop depth ts ⟨step.result, 0, step.faults⟩ :=
      ⟨Nat.zero_le _, fun s hs => absurd ⟨s, hs⟩ hstate⟩
    exact ⟨_, hcomes, hclean⟩

end Steps

theorem clean_operands (least : Nat) (stop : Span) (depth : Nat) (ts : List Token) :
    Clean GoodLink (operands least stop depth ts) := by
  rw [operands]
  split
  · exact clean_of_account ((errorless.survey stop).says_readExpr depth ts)
  · split
    · exact clean_of_account ((errorless.survey stop).says_readProduct depth ts)
    · exact clean_of_account ((errorless.survey stop).says_readFactor depth ts)

theorem behaves_binary (least : Nat) (stop : Span) (depth : Nat) (ts : List Token) :
    Behaves (fun s => s.binary least) stop depth ts (Reads GoodLink) :=
  behaves_of_runs (fun _ hs => runs_binary hs least) (clean_operands least stop depth ts)

/-- Whether the next token is an arrow of the chain. -/
def AtArrow (backward : Bool) (ts : List Token) : Prop :=
  ∃ t rest, ts = t :: rest ∧ isArrow backward t

theorem behaves_finish (backward : Bool) (first : Link) (others : List Link) (stop : Span)
    (depth : Nat) (ts : List Token) :
    Behaves (fun s => s.finish backward first others) stop depth ts fun r =>
      others ≠ [] → GoodLinks (first :: others) → Reads Statement.ErrorFree r := by
  cases others with
  | nil => exact behaves_here fun hne => absurd rfl hne
  | cons second more =>
    refine behaves_noted fun _ _ hgood => ⟨_, rfl, ?_⟩
    obtain ⟨hfirst, hothers⟩ := List.forall_mem_cons.mp hgood
    obtain ⟨hsecond, hmore⟩ := List.forall_mem_cons.mp hothers
    exact errorFree_chainOf backward hfirst hsecond hmore

theorem behaves_links (backward : Bool) (first : Link) (others : List Link) (stop : Span)
    (depth : Nat) (ts : List Token) :
    Behaves (fun s => s.links backward first others) stop depth ts fun r =>
      (others = [] → AtArrow backward ts) → GoodLinks (first :: others) →
        Reads Statement.ErrorFree r := by
  refine Behaves.of_eq (fun s hs => by rw [links, hs.rest]) ?_
  cases ts with
  | nil =>
    refine (behaves_finish backward first others stop depth []).mono fun r h hmore => h ?_
    intro hnil
    obtain ⟨t, rest, hcons, _⟩ := hmore hnil
    cases hcons
  | cons t rest =>
    dsimp only
    split
    · refine .behind (behaves_binary 1 stop depth rest) fun r rest' _ => ?_
      cases r with
      | error span => exact behaves_here fun hread => absurd hread (not_reads_error span)
      | ok link =>
        refine (behaves_links backward first (others ++ [link]) stop depth rest').mono ?_
        intro r h hread _ hgood
        have hlink := reads_ok.mp hread
        refine h (fun hnil => by simp at hnil) ?_
        rw [← List.cons_append]
        exact List.forall_mem_append.mpr ⟨hgood, List.forall_mem_singleton.mpr hlink⟩
    · next harrow =>
      refine (behaves_finish backward first others stop depth _).mono fun r h hmore => h ?_
      intro hnil
      obtain ⟨t', rest', hcons, hat⟩ := hmore hnil
      cases hcons
      exact harrow hat
termination_by ts.length
decreasing_by subst_vars; simp only [List.length_cons]; omega

theorem behaves_routing (stop : Span) (depth : Nat) (ts : List Token) :
    Behaves routing stop depth ts (Reads Statement.ErrorFree) := by
  refine Behaves.bind (behaves_binary 1 stop depth ts) fun r rest _ => ?_
  cases r with
  | error span => exact behaves_here fun hread => absurd hread (not_reads_error span)
  | ok first =>
    have hchain : ∀ backward t tail, rest = t :: tail → isArrow backward t →
        Behaves (fun s => s.links backward first []) stop depth rest fun r =>
          Reads GoodLink (.ok first) → Reads Statement.ErrorFree r := by
      intro backward t tail hrest harrow
      refine (behaves_links backward first [] stop depth rest).mono fun r h hread => ?_
      have hfirst : GoodLink first := reads_ok.mp hread
      exact h (fun _ => ⟨t, tail, hrest, harrow⟩) (List.forall_mem_singleton.mpr hfirst)
    refine Behaves.of_eq (fun s hs => by simp only [hs.rest]; rfl) ?_
    split
    · exact hchain false _ _ rfl rfl
    · exact hchain true _ _ rfl rfl
    · split
      · next c hc =>
        refine behaves_here fun hread => ⟨_, rfl, ?_⟩
        have hgood := reads_ok.mp hread
        rw [GoodLink, hc] at hgood
        exact hgood
      · exact behaves_noted fun hnone => by cases hnone

theorem behaves_statement (stop : Span) (depth : Nat) (ts : List Token) :
    Behaves statement stop depth ts (Reads Statement.ErrorFree) := by
  refine Behaves.of_eq (fun s hs => by rw [statement, hs.rest]) ?_
  split
  · next name span assign rest =>
    refine .bind (.advancing (.advancing (behaves_binary 1 stop depth rest))) fun r _ _ => ?_
    cases r with
    | error span => exact behaves_here fun hread => absurd hread (not_reads_error span)
    | ok value =>
      refine behaves_here fun hread => ⟨_, rfl, ?_⟩
      have hvalue : GoodLink value := reads_ok.mp hread
      exact hvalue
  · exact behaves_routing stop depth ts

/-- A keyword of a voice block changes the block and is used up. -/
theorem comes_keyword (t : Token) (ts : List Token) (r : Block × List (Located Fault)) :
    Comes (fun s => some ((r.1, (none : Option Line)), s.advance.note r.2)) stop depth (t :: ts)
      ⟨(r.1, none), 1, r.2⟩ := by
  have hcomes : Comes (fun s => some ((r.1, (none : Option Line)), s.advance.note r.2)) stop depth
      (t :: ts) _ := ((comes_here (r.1, none)).noting r.2).advancing
  rw [List.append_nil] at hcomes
  exact hcomes

/-- A line uses up a token also where its statement uses none. -/
theorem comes_line {t : Token} {o : Outcome (Except Span Statement)}
    (h : Comes statement stop depth (t :: ts) o) (scope : Scope) :
    Comes (fun s => s.line scope) stop depth (t :: ts)
      ⟨⟨scope, written o.value⟩, max 1 o.count, o.faults⟩ := by
  refine ⟨max_le (Nat.le_add_left _ _) h.le, fun s hs => ?_⟩
  have hafter := hs.after o.count o.faults
  have hline : s.line scope = some (⟨scope, written o.value⟩,
      if (s.after o.count o.faults).position = s.position then (s.after o.count o.faults).advance
      else s.after o.count o.faults) := by
    rw [line, h.eq s hs]
    rfl
  rw [hline]
  split
  · next hnone =>
    have hzero : o.count = 0 := Nat.add_eq_left.mp hnone
    rw [hzero] at hafter ⊢
    rw [hafter.advance, after_after, List.append_nil]
    rfl
  · next hsome =>
    have hpos : 1 ≤ o.count := Nat.pos_of_ne_zero fun hzero => hsome (Nat.add_eq_left.mpr hzero)
    rw [max_eq_right hpos]

/-- What was handled of the tokens: lines and keywords, and what the tokens used up for them give in
a program. -/
structure Handled (stop : Span) (depth : Nat) (block : Block) (ts : List Token)
    (new : List (Option Line)) (after : Block) (count : Nat) (faults : List (Located Fault)) :
    Prop where
  le : new.length ≤ count
  errorFree : faults = [] → ∀ line ∈ new.reduceOption, line.statement.ErrorFree
  reading : ∀ s : Parser, s.At stop depth ts → depth = 0 →
    readLines stop block ts = (readLines stop after (ts.drop count)).behind new.reduceOption faults

theorem Handled.trans {new new' : List (Option Line)} {block after after' : Block}
    {count count' : Nat} {faults faults' : List (Located Fault)}
    (h : Handled stop depth block ts new after count faults)
    (h' : Handled stop depth after (ts.drop count) new' after' count' faults') :
    Handled stop depth block ts (new ++ new') after' (count + count') (faults ++ faults') where
  le := by
    rw [List.length_append]
    exact Nat.add_le_add h.le h'.le
  errorFree hfaults := by
    obtain ⟨hnone, hnone'⟩ := List.append_eq_nil_iff.mp hfaults
    rw [List.reduceOption_append]
    exact List.forall_mem_append.mpr ⟨h.errorFree hnone, h'.errorFree hnone'⟩
  reading s hs hdepth := by
    rw [h.reading s hs hdepth, h'.reading _ (hs.after count []) hdepth, List.drop_drop,
      List.reduceOption_append]
    simp only [Reading.behind, List.append_assoc]

theorem handled_nil (stop : Span) (depth : Nat) (block : Block) (ts : List Token) :
    Handled stop depth block ts [] block 0 [] :=
  ⟨Nat.le_refl _, fun _ _ hline => absurd hline List.not_mem_nil, fun _ _ _ => rfl⟩

theorem handled_keyword {t : Token} {block : Block} (r : Block × List (Located Fault))
    (h : readLines stop block (t :: ts) = (readLines stop r.1 ts).behind [] r.2) :
    Handled stop depth block (t :: ts) [none] r.1 1 r.2 :=
  ⟨Nat.le_refl _, fun _ _ hline => absurd hline List.not_mem_nil, fun _ _ _ => h⟩

theorem reading_line {t : Token} (hstart : t.kind ≠ .keyword .startVoice)
    (hend : t.kind ≠ .keyword .endVoice) (block : Block) {count : Nat}
    (hrest : (readStatement stop (t :: ts)).rest = (t :: ts).drop count) :
    readLines stop block (t :: ts) =
      (readLines stop block ((t :: ts).drop (max 1 count))).behind
        [⟨block.scope, written (readStatement stop (t :: ts)).result⟩]
        (readStatement stop (t :: ts)).faults := by
  rw [readLines.eq_4]
  · split
    · next hused =>
      rw [hrest, List.length_drop, List.length_cons] at hused
      have hpos : 1 ≤ count := by omega
      rw [max_eq_right hpos, ← hrest]
      rfl
    · next hnone =>
      rw [hrest, List.length_drop, List.length_cons] at hnone
      have hzero : count = 0 := by omega
      rw [hzero]
      rfl
  · intro span ht
    exact hstart (ht ▸ rfl)
  · intro span ht
    exact hend (ht ▸ rfl)

/-- A round handles one line or keyword and uses up a token at least. -/
theorem comes_round (stop : Span) (depth : Nat) (block : Block) (t : Token) (ts : List Token) :
    ∃ o, Comes (fun s => s.round t block) stop depth (t :: ts) o ∧
      Handled stop depth block (t :: ts) [o.value.2] o.value.1 o.count o.faults := by
  by_cases hstart : t.kind = .keyword .startVoice
  · obtain ⟨kind, span⟩ := t
    obtain rfl : kind = .keyword .startVoice := hstart
    refine ⟨_, comes_keyword _ ts (block.start span), handled_keyword (block.start span) ?_⟩
    rw [readLines]
  by_cases hend : t.kind = .keyword .endVoice
  · obtain ⟨kind, span⟩ := t
    obtain rfl : kind = .keyword .endVoice := hend
    refine ⟨_, comes_keyword _ ts (block.close span), handled_keyword (block.close span) ?_⟩
    rw [readLines]
  obtain ⟨o, ho, hok⟩ := behaves_statement stop depth (t :: ts)
  have hround : Comes (fun s => s.round t block) stop depth (t :: ts)
      ⟨(block, some ⟨block.scope, written o.value⟩), max 1 o.count, o.faults⟩ := by
    have hcomes := (comes_line ho block.scope).bind (comes_here (block, some _))
      (k := fun r => some ((block, some r.1), r.2))
    obtain ⟨kind, span⟩ := t
    rw [List.append_nil] at hcomes
    refine hcomes.of_eq fun s _ => ?_
    rw [round]
    split
    · next hkind => exact absurd hkind hstart
    · next hkind => exact absurd hkind hend
    · rfl
  refine ⟨_, hround, le_max_left _ _, fun hfaults line hline => ?_, fun s hs hdepth => ?_⟩
  · obtain ⟨statement, hstatement, herror⟩ := hok hfaults
    rw [hstatement] at hline
    obtain rfl := List.mem_singleton.mp hline
    exact herror
  · subst hdepth
    obtain ⟨count, hrest, hcomes⟩ := comes_of_runs hs fun s hs => runs_statement hs
    obtain rfl := ho.unique hcomes hs
    exact reading_line hstart hend block hrest

theorem comes_rounds_nil (stop : Span) (depth : Nat) (block : Block)
    (handled : List (Option Line)) :
    Comes (fun s => s.rounds block handled) stop depth [] ⟨(block, handled ++ []), 0, []⟩ := by
  rw [List.append_nil]
  exact (comes_here (block, handled)).of_eq fun s hs => by rw [rounds, hs.rest]; rfl

/-- Rounds end behind the last token, whatever was handled before. -/
theorem comes_rounds (stop : Span) (depth : Nat) (block : Block) (ts : List Token) :
    ∃ new after faults, Handled stop depth block ts new after ts.length faults ∧
      ∀ handled, Comes (fun s => s.rounds block handled) stop depth ts
        ⟨(after, handled ++ new), ts.length, faults⟩ := by
  cases ts with
  | nil =>
    exact ⟨[], block, [], handled_nil stop depth block [], comes_rounds_nil stop depth block⟩
  | cons t rest =>
    obtain ⟨o, ho, hround⟩ := comes_round stop depth block t rest
    -- A round uses up a token, so fewer are left for the others.
    have hpos : 1 ≤ o.count := hround.le
    obtain ⟨new, after, faults, hrest, hmore⟩ :=
      comes_rounds stop depth o.value.1 ((t :: rest).drop o.count)
    have hcount : o.count + ((t :: rest).drop o.count).length = (t :: rest).length := by
      rw [List.length_drop, Nat.add_sub_cancel' ho.le]
    refine ⟨o.value.2 :: new, after, o.faults ++ faults, hcount ▸ hround.trans hrest, ?_⟩
    intro handled
    have hcomes := ho.bind (k := fun r => r.2.rounds r.1.1 (handled ++ [r.1.2]))
      (hmore (handled ++ [o.value.2]))
    rw [List.append_assoc, List.singleton_append, hcount] at hcomes
    exact hcomes.of_eq fun s hs => by rw [rounds, hs.rest]
termination_by ts.length
decreasing_by rw [List.length_drop, List.length_cons]; omega

/-- Where the main loop stands between two statements, in which voice block and after which lines
and keywords. -/
inductive Boundary (ts : List Token) : Parser → Block → List (Option Line) → Prop where
  | start : Boundary ts (start ts) ⟨none, false⟩ []
  | round {s s' : Parser} {block after : Block} {handled : List (Option Line)}
      {line : Option Line} {t : Token} {rest : List Token} : Boundary ts s block handled →
      s.rest = t :: rest → s.round t block = some ((after, line), s') →
      Boundary ts s' after (handled ++ [line])

theorem at_start (ts : List Token) : (start ts).At (start ts).stop 0 ts := ⟨rfl, rfl, rfl⟩

theorem Boundary.depth_eq {block : Block} {handled : List (Option Line)}
    (h : Boundary ts s block handled) : s.depth = 0 := by
  induction h with
  | start => rfl
  | @round s s' block after handled line t rest _ hrest hround ih =>
    obtain ⟨o, ho, -⟩ := comes_round s.stop s.depth block t rest
    rw [ho.eq s ⟨rfl, rfl, hrest⟩] at hround
    have hafter : s.after o.count o.faults = s' := congrArg Prod.snd (Option.some.inj hround)
    rw [← hafter]
    exact ih

theorem Boundary.rounds_eq {block : Block} {handled : List (Option Line)}
    (h : Boundary ts s block handled) :
    (Parser.start ts).rounds ⟨none, false⟩ [] = s.rounds block handled := by
  induction h with
  | start => rfl
  | round _ hrest hround ih =>
    rw [ih, rounds, hrest]
    dsimp only
    rw [hround]
    rfl

theorem Boundary.parse_eq {block : Block} {handled : List (Option Line)}
    (h : Boundary ts s block handled) {o : Outcome (Block × List (Option Line))}
    (ho : Comes (fun s => s.rounds block handled) s.stop 0 s.rest o) :
    (Parser.start ts).parse =
      some (o.value.2, s.after o.count (o.faults ++ unclosed o.value.1)) := by
  have hrounds := h.rounds_eq.trans (ho.eq s ⟨rfl, h.depth_eq, rfl⟩)
  rw [parse, hrounds, ← Nat.add_zero o.count, ← after_after]
  rfl

theorem stop_eq_of_rest_eq {u : Parser} (h : s.rest = u.rest) (hne : s.rest ≠ []) :
    s.stop = u.stop := by
  have hlast : ∀ s : Parser, s.rest ≠ [] → s.tokens.getLast? = s.rest.getLast? := by
    intro s hne
    rw [rest, List.getLast?_drop, if_neg]
    intro hle
    exact hne (List.drop_eq_nil_of_le hle)
  rw [stop, stop, hlast s hne, hlast u (h ▸ hne), h]

/-- What is handled behind a boundary depends on the tokens that are left and on the block. -/
theorem rounds_alike {u : Parser} (h : s.rest = u.rest) (depth : Nat) (block : Block) :
    ∃ new after count faults, ∀ handled,
      Comes (fun s => s.rounds block handled) s.stop depth s.rest
          ⟨(after, handled ++ new), count, faults⟩ ∧
        Comes (fun s => s.rounds block handled) u.stop depth u.rest
          ⟨(after, handled ++ new), count, faults⟩ := by
  by_cases hnil : s.rest = []
  · refine ⟨[], block, 0, [], fun handled => ?_⟩
    rw [← h, hnil]
    exact ⟨comes_rounds_nil .., comes_rounds_nil ..⟩
  · obtain ⟨new, after, faults, -, hcomes⟩ := comes_rounds s.stop depth block s.rest
    refine ⟨new, after, _, faults, fun handled => ⟨hcomes handled, ?_⟩⟩
    rw [← stop_eq_of_rest_eq h hnil, ← h]
    exact hcomes handled

end Parser
end Patchbay.Program
