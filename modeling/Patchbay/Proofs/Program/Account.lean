import Mathlib.Data.List.Basic
import Patchbay.Program.Reader

/-! What is told of steps of reading. Each way to put steps together has one law, whatever it is that
is told of them. -/
namespace Patchbay.Program
variable {α β : Type} {ts us mid : List Token} {stop : Span}

/-- The place of the next token; the given one if there is none. -/
def upcoming (last : Span) (ts : List Token) : Span := (ts.head?.map Token.span).getD last

/-- How steps are told of: whether also of those that report faults, from which tokens on, and what
of the faults. The text ends at `stop`. -/
structure Account (stop : Span) where
  recovers : Prop
  laid : List Token → Prop
  told : List (Located Fault) → Prop
  laid_tail : ∀ {t ts}, laid (t :: ts) → laid ts
  told_nil : told []
  told_append : ∀ {first second}, told first → told second → told (first ++ second)
  told_end : told [⟨.unexpectedEnd, none⟩]
  told_upcoming : ∀ {ts} (fault : Fault), laid ts → told [⟨fault, some (upcoming stop ts)⟩]

namespace Account

/-- Nothing is told but of values. -/
def plain (recovers : Prop) : Account stop where
  recovers := recovers
  laid _ := True
  told _ := True
  laid_tail _ := trivial
  told_nil := trivial
  told_append _ _ := trivial
  told_end := trivial
  told_upcoming _ _ := trivial

/-- A step goes on from tokens to those it leaves. A value is as in `post`, in view of the faults
reported on the way and the tokens left. A failure is at the next of them. -/
def Says (A : Account stop) (post : List (Located Fault) → List Token → α → Prop) (s : Step ts α) :
    Prop :=
  A.laid ts → A.recovers ∨ s.faults = [] → s.rest <:+ ts ∧ A.told s.faults ∧
    match s.result with
    | .ok value => post s.faults s.rest value
    | .error span => A.recovers ∧ span = upcoming stop s.rest

variable {A : Account stop}

theorem laid_suffix (h : A.laid ts) (hs : us <:+ ts) : A.laid us := by
  obtain ⟨front, rfl⟩ := hs
  induction front with
  | nil => exact h
  | cons t front ih => exact ih (A.laid_tail h)

namespace Says
variable {post : List (Located Fault) → List Token → α → Prop}
  {post' : List (Located Fault) → List Token → β → Prop} {s : Step ts α}

theorem of_laid (h : A.laid ts → A.Says post s) : A.Says post s := fun hlaid => h hlaid hlaid

theorem ok {value : α} {rest : List Token} {le : rest.length ≤ ts.length} (hrest : rest <:+ ts)
    (h : post [] rest value) : A.Says post (⟨.ok value, [], rest, le⟩ : Step ts α) :=
  fun _ _ => ⟨hrest, A.told_nil, h⟩

theorem done {value : α} (h : post [] ts value) : A.Says post (Step.done value : Step ts α) :=
  .ok List.suffix_rfl h

theorem failed (hr : A.recovers) :
    A.Says post (Step.failed (upcoming stop ts) : Step ts α) :=
  fun _ _ => ⟨List.suffix_rfl, A.told_nil, hr, rfl⟩

theorem imp {post' : List (Located Fault) → List Token → α → Prop} (h : A.Says post s)
    (hp : ∀ faults rest value, post faults rest value → post' faults rest value) :
    A.Says post' s := by
  intro hlaid hf
  obtain ⟨hrest, htold, hresult⟩ := h hlaid hf
  refine ⟨hrest, htold, ?_⟩
  cases hs : s.result with
  | ok value =>
    rw [hs] at hresult
    exact hp _ _ value hresult
  | error span =>
    rw [hs] at hresult
    exact hresult

/-- What comes second is told of with the faults of what comes first. -/
theorem either (h : A.Says post s)
    {next : α → (rest : List Token) → rest.length ≤ ts.length → Step rest β}
    {failed : Span → (rest : List Token) → rest.length ≤ ts.length → Step rest β}
    (hn : ∀ value faults rest le, A.laid rest → rest <:+ ts → post faults rest value →
      A.Says (fun more => post' (faults ++ more)) (next value rest le))
    (hf : A.recovers → ∀ faults rest le, A.laid rest → rest <:+ ts →
      A.Says (fun more => post' (faults ++ more)) (failed (upcoming stop rest) rest le)) :
    A.Says post' (s.either next failed) := by
  intro hlaid hquiet
  obtain ⟨result, faults, rest, le⟩ := s
  have hfirst : A.recovers ∨ faults = [] :=
    hquiet.imp_right fun hf => (List.append_eq_nil_iff.mp hf).1
  obtain ⟨hrest, htold, hresult⟩ := h hlaid hfirst
  have hlaid' : A.laid rest := laid_suffix hlaid hrest
  have behind : ∀ t : Step rest β, A.Says (fun more => post' (faults ++ more)) t →
      (A.recovers ∨ faults ++ t.faults = []) →
      A.Says post' (⟨t.result, faults ++ t.faults, t.rest, Nat.le_trans t.le le⟩ : Step ts β) := by
    intro t ht hquiet _ _
    obtain ⟨hrest', htold', hresult'⟩ := ht hlaid'
      (hquiet.imp_right fun hf => (List.append_eq_nil_iff.mp hf).2)
    exact ⟨hrest'.trans hrest, A.told_append htold htold', hresult'⟩
  cases result with
  | ok value => exact behind _ (hn value faults rest le hlaid' hrest hresult) hquiet hlaid hquiet
  | error span =>
    have hspan : span = upcoming stop rest := hresult.2
    subst hspan
    exact behind _ (hf hresult.1 faults rest le hlaid' hrest) hquiet hlaid hquiet

theorem andThen (h : A.Says post s)
    {next : α → (rest : List Token) → rest.length ≤ ts.length → Step rest β}
    (hn : ∀ value faults rest le, A.laid rest → rest <:+ ts → post faults rest value →
      A.Says (fun more => post' (faults ++ more)) (next value rest le)) :
    A.Says post' (s.andThen next) := h.either hn fun hr _ _ _ _ _ => .failed hr

theorem orElse (h : A.Says post s)
    {next : Span → (rest : List Token) → rest.length ≤ ts.length → Step rest α}
    (hn : A.recovers → ∀ faults rest le, A.laid rest → rest <:+ ts →
      A.Says (fun more => post (faults ++ more)) (next (upcoming stop rest) rest le)) :
    A.Says post (s.orElse next) := by
  refine h.either (fun value faults rest le _ _ hv => .done ?_) hn
  rwa [List.append_nil]

theorem map (h : A.Says post s) {f : α → β} (hf : ∀ faults rest value, A.laid rest →
      post faults rest value → post' faults rest (f value)) : A.Says post' (s.map f) := by
  intro hlaid hquiet
  obtain ⟨hrest, htold, hresult⟩ := h hlaid hquiet
  refine ⟨hrest, htold, ?_⟩
  rw [Step.map]
  cases hs : s.result with
  | ok value =>
    rw [hs] at hresult
    exact hf _ _ value (laid_suffix hlaid hrest) hresult
  | error span =>
    rw [hs] at hresult
    exact hresult

theorem behind (h : A.Says post s) (hts : ts <:+ us) {le : ts.length ≤ us.length} :
    A.Says post (s.behind le : Step us α) := by
  intro hlaid hquiet
  obtain ⟨hrest, htold, hresult⟩ := h (laid_suffix hlaid hts) hquiet
  exact ⟨hrest.trans hts, htold, hresult⟩

/-- If faults are noted first then the rest is told of with them. -/
theorem noting {faults : List (Located Fault)} (hf : A.told faults)
    (h : A.Says (fun more => post (faults ++ more)) s) : A.Says post (s.noting faults) := by
  intro hlaid hquiet
  obtain ⟨hrest, htold, hresult⟩ :=
    h hlaid (hquiet.imp_right fun hf => (List.append_eq_nil_iff.mp hf).2)
  exact ⟨hrest, A.told_append hf htold, hresult⟩

/-- Where an account breaks off at faults, nothing is told of steps that report some. -/
theorem of_faults {fault : Located Fault} {more : List (Located Fault)}
    (hf : s.faults = fault :: more) (h : A.recovers → A.Says post s) : A.Says post s := by
  intro hlaid hquiet
  obtain hr | hnil := hquiet
  · exact h hr hlaid (.inl hr)
  · exact absurd (hf.symm.trans hnil) (List.cons_ne_nil _ _)

end Says

variable {post : List (Located Fault) → List Token → α → Prop}

theorem says_unexpected (ts : List Token) : A.Says post (unexpected stop ts : Step ts α) := by
  cases ts with
  | nil => exact .of_faults rfl fun hr _ _ => ⟨List.suffix_rfl, A.told_end, hr, rfl⟩
  | cons t rest =>
    exact .of_faults rfl fun hr hlaid _ =>
      ⟨List.suffix_rfl, A.told_upcoming _ hlaid, hr, rfl⟩

/-- Behind an unexpected token reading goes on from it. -/
theorem Says.of_unexpected {next : Span → (rest : List Token) → rest.length ≤ ts.length → Step rest α}
    (hn : A.recovers → A.Says
      (fun more => post ((unexpected stop ts : Step ts α).faults ++ more))
      (next (upcoming stop ts) ts (Nat.le_refl _))) :
    A.Says post ((unexpected stop ts).orElse next) := by
  cases ts with
  | nil =>
    refine .of_faults rfl fun hr hlaid hquiet => ?_
    obtain ⟨hrest, htold, hresult⟩ := hn hr hlaid (.inl hr)
    exact ⟨hrest, A.told_append A.told_end htold, hresult⟩
  | cons t rest =>
    refine .of_faults rfl fun hr hlaid hquiet => ?_
    obtain ⟨hrest, htold, hresult⟩ := hn hr hlaid (.inl hr)
    exact ⟨hrest, A.told_append (A.told_upcoming _ hlaid) htold, hresult⟩

/-- A fault at the next token, where nothing can be read. -/
theorem says_failed (fault : Fault) (ts : List Token) :
    A.Says post
      ((Step.failed (upcoming stop ts) : Step ts α).noting [⟨fault, some (upcoming stop ts)⟩]) :=
  .of_faults rfl fun hr => .of_laid fun hlaid =>
    .noting (A.told_upcoming fault hlaid) (.failed hr)

theorem says_expect (kind : Token.Kind) (ts : List Token) :
    A.Says (fun faults rest span => faults = [] ∧ ts = ⟨kind, span⟩ :: rest)
      (expect stop kind ts) := by
  cases ts with
  | nil => exact says_unexpected []
  | cons t rest =>
    rw [expect]
    split
    · next hkind => exact .ok (List.suffix_cons _ _) ⟨rfl, hkind ▸ rfl⟩
    · exact says_unexpected _

theorem says_readIdent (ts : List Token) :
    A.Says (fun faults rest ident => faults = [] ∧ ts = ⟨.name ident.name, ident.span⟩ :: rest)
      (readIdent stop ts) := by
  rw [readIdent.eq_def]
  split
  · exact .ok (List.suffix_cons _ _) ⟨rfl, rfl⟩
  · exact says_unexpected _

theorem skipGroup_ok (last : Span) (ts : List Token) : (skipGroup last ts).rest <:+ ts ∧
    (skipGroup last ts).faults = [] ∧ ∃ close, (skipGroup last ts).result = .ok close := by
  induction ts generalizing last with
  | nil => exact ⟨List.suffix_rfl, rfl, last, rfl⟩
  | cons t rest ih =>
    rw [skipGroup]
    split
    · exact ⟨List.suffix_cons _ _, rfl, t.span, rfl⟩
    · exact ⟨(ih t.span).1.trans (List.suffix_cons _ _), (ih t.span).2⟩

/-- Where a group is skipped from the given tokens on, these are left behind its end. -/
structure Skips (stop : Span) (ts rest : List Token) (close : Span) : Prop where
  result : (skipGroup stop ts).result = .ok close
  rest : (skipGroup stop ts).rest = rest

/-- Skipping does not fail and reports nothing. -/
theorem says_skipGroup (ts : List Token) :
    A.Says (fun faults rest close => faults = [] ∧ Skips stop ts rest close) (skipGroup stop ts) := by
  obtain ⟨hrest, hfaults, close, hresult⟩ := skipGroup_ok stop ts
  refine fun _ _ => ⟨hrest, hfaults ▸ A.told_nil, ?_⟩
  rw [hresult]
  exact ⟨hfaults, hresult, rfl⟩

end Account
end Patchbay.Program
