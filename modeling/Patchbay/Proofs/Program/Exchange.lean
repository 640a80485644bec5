import Patchbay.Proofs.Program.Layout
import Patchbay.Proofs.Program.RoundTrip

/-! Two readings side by side, of tokens and of the same tokens without places, up to what may be
exchanged. Each way to put steps together has one law. -/
namespace Patchbay.Program
variable {α β γ δ : Type} {whole : Prop} {stop' : Span} {us vs rest rest' : List Token}

/-- The tokens that no expression has: arrows and the marks of the voice block. -/
def endsExpr : Token.Kind → Bool
  | .operator .arrow | .operator .backArrow | .keyword .startVoice | .keyword .endVoice => true
  | _ => false

/-- The next token is in no expression, or there is none. -/
def Ends (rest : List Token) : Prop := ∀ t ∈ rest.head?, endsExpr t.kind = true

/-- No token at the front goes on with an expression, or with a part of one. -/
structure Apart (rest : List Token) : Prop where
  stops : Stops rest
  group : ∀ span more, rest ≠ ⟨.mark .openParen, span⟩ :: more

theorem apart_nil : Apart [] := by
  refine ⟨⟨⟨?_, ?_, ?_⟩, ?_, ?_, ?_⟩, ?_⟩ <;> simp [NoMapping]

theorem apart_cons {kind : Token.Kind} (h : goesOn kind = false) (hg : kind ≠ .mark .openParen)
    (span : Span) (rest : List Token) : Apart (⟨kind, span⟩ :: rest) := by
  refine ⟨stops_cons h span rest, ?_⟩
  rintro _ _ ⟨⟩
  exact hg rfl

theorem Ends.eq_nil_or (h : Ends rest) : rest = [] ∨ ∃ kind span more,
    rest = ⟨kind, span⟩ :: more ∧ (kind = .operator .arrow ∨ kind = .operator .backArrow ∨
      kind = .keyword .startVoice ∨ kind = .keyword .endVoice) := by
  cases rest with
  | nil => exact .inl rfl
  | cons t more =>
    obtain ⟨kind, span⟩ := t
    have hkind : endsExpr kind = true := h _ rfl
    refine .inr ⟨kind, span, more, rfl, ?_⟩
    rw [endsExpr.eq_def] at hkind
    split at hkind <;> simp_all

theorem Ends.ne_cons (h : Ends rest) {kind : Token.Kind} (hk : endsExpr kind = false) (span : Span)
    (more : List Token) : rest ≠ ⟨kind, span⟩ :: more := by
  rintro rfl
  exact Bool.false_ne_true (hk.symm.trans (h _ rfl))

theorem Ends.apart (h : Ends rest) : Apart rest := by
  obtain rfl | ⟨kind, span, more, rfl, rfl | rfl | rfl | rfl⟩ := h.eq_nil_or
  · exact apart_nil
  all_goals exact apart_cons rfl (by simp) span more

/-- What tokens are read up to, and what may stand in its place where the text ends at `stop'`. For
readings to be compared as a `whole`, faults and all, nothing stands in either place. -/
structure Exchange (whole : Prop) (stop' : Span) (rest rest' : List Token) : Prop where
  ends : Ends rest
  apart : Apart rest'
  alone : whole → stop' = ⟨0, 0⟩ ∧ rest = [] ∧ rest' = []

/-- If the step before `rest` reports no fault then it stops there at the latest, and the step
before `rest'` reads from the tokens without places what the other reads, without its places, and
leaves the same tokens. Compared as a whole, the steps agree also where they report faults. -/
def Mirrors (whole : Prop) (us rest rest' : List Token) (f : α → β) (s : Step (us ++ rest) α)
    (s' : Step (us.map Token.bare ++ rest') β) : Prop :=
  whole ∨ s.faults = [] → s'.faults = s.faults.map Located.bare ∧
    (∃ left, s.rest = left ++ rest ∧ s'.rest = left.map Token.bare ++ rest') ∧
      match s.result with
      | .ok value => s'.result = .ok (f value)
      | .error _ => whole ∧ s'.result = .error ⟨0, 0⟩

namespace Mirrors
variable {f : α → β} {s : Step (us ++ rest) α} {s' : Step (us.map Token.bare ++ rest') β}

theorem of_faults (hs : s.faults ≠ []) (h : whole → Mirrors whole us rest rest' f s s') :
    Mirrors whole us rest rest' f s s' := fun hquiet =>
  h (hquiet.resolve_right hs) hquiet

theorem of_yields (left : List Token) {value : α} (h : Yields (left ++ rest) (· = value) s)
    (h' : Yields (left.map Token.bare ++ rest') (· = f value) s') :
    Mirrors whole us rest rest' f s s' := by
  obtain ⟨hfaults, hrest, _, hvalue, rfl⟩ := h
  obtain ⟨hfaults', hrest', _, hvalue', rfl⟩ := h'
  refine fun _ => ⟨?_, ⟨left, hrest, hrest'⟩, ?_⟩
  · rw [hfaults, hfaults']
    rfl
  · rwa [hvalue]

theorem ok {value : α} (left : List Token) {le : (left ++ rest).length ≤ (us ++ rest).length}
    {le' : (left.map Token.bare ++ rest').length ≤ (us.map Token.bare ++ rest').length} :
    Mirrors whole us rest rest' f ⟨.ok value, [], left ++ rest, le⟩
      ⟨.ok (f value), [], left.map Token.bare ++ rest', le'⟩ :=
  of_yields left (.ok rfl) (.ok rfl)

theorem done {value : α} : Mirrors whole us rest rest' f (.done value) (.done (f value)) := ok us

theorem of_done {value : α} (h : s = .done value) (h' : s' = .done (f value)) :
    Mirrors whole us rest rest' f s s' := by
  rw [h, h']
  exact done

theorem failed (hw : whole) (span : Span) :
    Mirrors whole us rest rest' f (.failed span) (.failed ⟨0, 0⟩) :=
  fun _ => ⟨rfl, ⟨us, rfl, rfl⟩, hw, rfl⟩

/-- What comes second reads from no more tokens than what comes first. -/
theorem either {g : γ → δ} (h : Mirrors whole us rest rest' f s s')
    {next : α → (more : List Token) → more.length ≤ (us ++ rest).length → Step more γ}
    {next' : β → (more : List Token) → more.length ≤ (us.map Token.bare ++ rest').length →
      Step more δ}
    {failed : Span → (more : List Token) → more.length ≤ (us ++ rest).length → Step more γ}
    {failed' : Span → (more : List Token) → more.length ≤ (us.map Token.bare ++ rest').length →
      Step more δ}
    (hn : ∀ value left le le', left.length ≤ us.length → Mirrors whole left rest rest' g
      (next value (left ++ rest) le) (next' (f value) (left.map Token.bare ++ rest') le'))
    (hf : whole → ∀ span left le le', Mirrors whole left rest rest' g
      (failed span (left ++ rest) le) (failed' ⟨0, 0⟩ (left.map Token.bare ++ rest') le')) :
    Mirrors whole us rest rest' g (s.either next failed) (s'.either next' failed') := by
  intro hquiet
  obtain ⟨result, faults, tail, le⟩ := s
  obtain ⟨result', faults', tail', le'⟩ := s'
  have hfirst : whole ∨ faults = [] := hquiet.imp_right fun hf => (List.append_eq_nil_iff.mp hf).1
  obtain ⟨hfaults, ⟨left, hrest, hrest'⟩, hresult⟩ := h hfirst
  dsimp only at hfaults hrest hrest' hresult
  subst hfaults hrest hrest'
  cases result with
  | ok value =>
    subst hresult
    have hleft : left.length ≤ us.length := by
      rw [List.length_append, List.length_append] at le
      omega
    obtain ⟨hmore, hend⟩ := hn value left le le' hleft
      (hquiet.imp_right fun hf => (List.append_eq_nil_iff.mp hf).2)
    refine ⟨?_, hend⟩
    rw [Step.either, Step.either, List.map_append]
    exact congrArg (faults.map Located.bare ++ ·) hmore
  | error span =>
    obtain ⟨hw, rfl⟩ := hresult
    obtain ⟨hmore, hend⟩ := hf hw span left le le' (.inl hw)
    refine ⟨?_, hend⟩
    rw [Step.either, Step.either, List.map_append]
    exact congrArg (faults.map Located.bare ++ ·) hmore

theorem andThen {g : γ → δ} (h : Mirrors whole us rest rest' f s s')
    {next : α → (more : List Token) → more.length ≤ (us ++ rest).length → Step more γ}
    {next' : β → (more : List Token) → more.length ≤ (us.map Token.bare ++ rest').length →
      Step more δ}
    (hn : ∀ value left le le', left.length ≤ us.length → Mirrors whole left rest rest' g
      (next value (left ++ rest) le) (next' (f value) (left.map Token.bare ++ rest') le')) :
    Mirrors whole us rest rest' g (s.andThen next) (s'.andThen next') :=
  h.either hn fun hw span _ _ _ => failed hw span

theorem orElse (h : Mirrors whole us rest rest' f s s')
    {next : Span → (more : List Token) → more.length ≤ (us ++ rest).length → Step more α}
    {next' : Span → (more : List Token) → more.length ≤ (us.map Token.bare ++ rest').length →
      Step more β}
    (hn : whole → ∀ span left le le', Mirrors whole left rest rest' f
      (next span (left ++ rest) le) (next' ⟨0, 0⟩ (left.map Token.bare ++ rest') le')) :
    Mirrors whole us rest rest' f (s.orElse next) (s'.orElse next') :=
  h.either (fun _ _ _ _ _ => done) hn

theorem map {g : γ → δ} (h : Mirrors whole us rest rest' f s s') {change : α → γ}
    {change' : β → δ} (hc : ∀ value, change' (f value) = g (change value)) :
    Mirrors whole us rest rest' g (s.map change) (s'.map change') := by
  intro hquiet
  obtain ⟨hfaults, hrest, hresult⟩ := h hquiet
  refine ⟨hfaults, hrest, ?_⟩
  rw [Step.map, Step.map]
  cases hs : s.result with
  | ok value =>
    rw [hs] at hresult
    rw [hresult]
    exact congrArg Except.ok (hc value)
  | error span =>
    rw [hs] at hresult
    rw [hresult.2]
    exact ⟨hresult.1, rfl⟩

theorem behind (h : Mirrors whole us rest rest' f s s')
    {le : (us ++ rest).length ≤ (vs ++ rest).length}
    {le' : (us.map Token.bare ++ rest').length ≤ (vs.map Token.bare ++ rest').length} :
    Mirrors whole vs rest rest' f (s.behind le) (s'.behind le') := h

theorem noting (h : Mirrors whole us rest rest' f s s') {faults faults' : List (Located Fault)}
    (hf : faults' = faults.map Located.bare) :
    Mirrors whole us rest rest' f (s.noting faults) (s'.noting faults') := by
  intro hquiet
  obtain ⟨hfaults, hend⟩ := h (hquiet.imp_right fun hf => (List.append_eq_nil_iff.mp hf).2)
  refine ⟨?_, hend⟩
  rw [Step.noting, Step.noting, hf, hfaults, List.map_append]

/-- Without a fault something is read. -/
theorem exists_value (h : Mirrors False us rest rest' f s s') (hs : s.faults = []) :
    ∃ value, s.result = .ok value := by
  obtain ⟨_, _, hresult⟩ := h (.inr hs)
  cases hvalue : s.result with
  | ok value => exact ⟨value, rfl⟩
  | error span =>
    rw [hvalue] at hresult
    exact hresult.1.elim

theorem yields (h : Mirrors whole us rest rest' f s s') {left : List Token} {value : α}
    (hs : Yields (left ++ rest) (· = value) s) :
    Yields (left.map Token.bare ++ rest') (· = f value) s' := by
  obtain ⟨hf, hrest, _, hvalue, rfl⟩ := hs
  obtain ⟨hf', ⟨left', hleft, hleft'⟩, hresult⟩ := h (.inr hf)
  obtain rfl := List.append_cancel_right (hrest.symm.trans hleft)
  rw [hvalue] at hresult
  rw [hf] at hf'
  exact ⟨hf', hleft', _, hresult, rfl⟩

end Mirrors

end Patchbay.Program
