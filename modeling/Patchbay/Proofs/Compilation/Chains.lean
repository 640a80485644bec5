import Mathlib.Data.List.Permutation
import Patchbay.Proofs.Compilation.Layout
import Patchbay.Proofs.Program.Chains

/-! A chain written in the one direction or in the other compiles to the same graph. The texts are
read as the same program but for its places. -/
namespace Patchbay.Compilation
open Building (Options)
open Program
variable {α : Type} [Arithmetic α]

/-- Texts that are read as the same program but for places compile alike. -/
theorem alike_of_reading (catalog : Catalog) (o : Options) {source other : String}
    (h : (ofTokens (Token.scan source)).bare = (ofTokens (Token.scan other)).bare) :
    let a : Compilation α := ofText catalog o source
    let b : Compilation α := ofText catalog o other
    a.diagnostics.map Diagnostic.bare = b.diagnostics.map Diagnostic.bare ∧
      a.graph?.map Graph.stripSpans = b.graph?.map Graph.stripSpans ∧
      (o.removeSpans = true → a.graph? = b.graph?) := by
  intro a b
  have hbare : { a.bare with tokens := b.bare.tokens } = b.bare := by
    dsimp only [a, b]
    rw [bare_ofText, bare_ofText]
    dsimp only
    rw [ofTokens_bare, ofTokens_bare, h]
  have hgraph : a.graph?.map Graph.stripSpans = b.graph?.map Graph.stripSpans :=
    congrArg (·.outcome.graph) hbare
  refine ⟨?_, hgraph, fun ho => ?_⟩
  · rw [← diagnostics_bare, ← diagnostics_bare, ← hbare]
    rfl
  · rwa [stripSpans_graph? catalog ho, stripSpans_graph? catalog ho] at hgraph

/-- Two or more links, each of which is one whole expression where an arrow or the end follows, are
read as one chain of these expressions when they are written from the first to the last with
arrows to the right, and when they are written from the last to the first with arrows to the left,
or also to the right behind the second. It is the same chain but for places, with the faults of
its links in the order of signals, as they are for any two ways to write it. With the same lines
before it and behind it, the texts compile to the same findings and to the same graph. -/
theorem ofText_bothWays (catalog : Catalog) (o : Options) {links : List (List Token)}
    {ways : List Operator} (hlinks : ∀ l ∈ links, ReadsAlone l)
    (hlength : ways.length + 2 = links.length)
    (hways : ∀ way ∈ ways, way = .arrow ∨ way = .backArrow) {right left : List Token}
    (hright : right.map Token.kind = chainKinds (List.replicate (ways.length + 1) .arrow) links)
    (hleft : left.map Token.kind = chainKinds (.backArrow :: ways) links.reverse) :
    (∃ read source steps target, List.Forall₂ ReadsAs links read ∧
      read.map Link.expr = source :: steps ++ [target] ∧
      (ofTokens right).bare =
        ⟨⟨[⟨.global, .chain source steps target ⟨0, 0⟩⟩]⟩, linkFaults read⟩ ∧
      (ofTokens left).bare =
        ⟨⟨[⟨.global, .chain source steps target ⟨0, 0⟩⟩]⟩, linkFaults read⟩) ∧
    ∀ (front back : List Token) (source other : String), Begun front →
      (front = [] ∨ startsLine ((right ++ back).map Token.kind) = true ∧
        startsLine ((left ++ back).map Token.kind) = true) →
      startsLine (back.map Token.kind) = true →
      (Token.scan source).map Token.kind = (front ++ right ++ back).map Token.kind →
      (Token.scan other).map Token.kind = (front ++ left ++ back).map Token.kind →
        let a : Compilation α := ofText catalog o source
        let b : Compilation α := ofText catalog o other
        a.diagnostics.map Diagnostic.bare = b.diagnostics.map Diagnostic.bare ∧
          a.graph?.map Graph.stripSpans = b.graph?.map Graph.stripSpans ∧
          (o.removeSpans = true → a.graph? = b.graph?) := by
  have hw : Ways true ways := fun way hway => (hways way hway).imp_right fun hback => ⟨rfl, hback⟩
  obtain ⟨read, hread⟩ := exists_forall₂_readsAs hlinks
  have hcount : read.length = ways.length + 2 := hlength ▸ hread.length_eq.symm
  obtain ⟨first, between, last, hparts⟩ := exists_first_last hcount
  refine ⟨⟨read, first.expr, between.map Link.expr, last.expr, hread, ?_, ?_, ?_⟩, ?_⟩
  · rw [hparts, List.map_append, List.map_cons]
    rfl
  · exact ofTokens_bothWays hread hparts hlength hw (.inl hright)
  · exact ofTokens_bothWays hread hparts hlength hw (.inr hleft)
  · intro front back source other hfront hstart hback hsource hother
    obtain ⟨r, hr⟩ := exists_ofTokens_bothWays hread hparts hlength hw hfront hback
    have hsame : ∀ {ts us : List Token}, ts.map Token.kind = us.map Token.kind →
        (ofTokens ts).bare = (ofTokens us).bare := by
      intro ts us hkinds
      rw [← ofTokens_bare, ← ofTokens_bare, bare_of_kinds hkinds]
    refine alike_of_reading catalog o ?_
    rw [hsame hsource, hsame hother, hr right (.inl hright) (hstart.imp_right And.left),
      hr left (.inr hleft) (hstart.imp_right And.right)]

/-- An oscillator over an attenuator to the output, as links of their own. -/
def fadeLinks : List (List Token) :=
  [[⟨.name "s", ⟨0, 1⟩⟩],
    [⟨.keyword .new, ⟨0, 3⟩⟩, ⟨.name "Attenuator", ⟨4, 14⟩⟩, ⟨.mark .openParen, ⟨14, 15⟩⟩,
      ⟨.name "gate", ⟨15, 19⟩⟩, ⟨.mark .closeParen, ⟨19, 20⟩⟩],
    [⟨.name "output", ⟨0, 6⟩⟩]]

/-- The chain of these links to the right. -/
def rightChain : String := "s => new Attenuator(gate) => output"

/-- The chain to the left, with its second arrow to the right. -/
def leftChain : String := "output <= new Attenuator(gate) => s"

/-- The beginning of a voice block, with the oscillator. -/
def voiceText : String := "startvoice\nSine s(pitch)"

/-- The voice block with a chain in it. -/
def inVoice (chain : String) : String := voiceText ++ "\n" ++ chain ++ "\nendvoice"

theorem ofText_bothWays_fade :
    let a : Compilation Float := ofText Library.standard.catalog .standard (inVoice rightChain)
    let b : Compilation Float := ofText Library.standard.catalog .standard (inVoice leftChain)
    (∀ l ∈ fadeLinks, ReadsAlone l) ∧
    (∃ read source steps target, List.Forall₂ ReadsAs fadeLinks read ∧
      read.map Link.expr = source :: steps ++ [target] ∧
      (ofTokens (Token.scan rightChain)).bare =
        ⟨⟨[⟨.global, .chain source steps target ⟨0, 0⟩⟩]⟩, linkFaults read⟩ ∧
      (ofTokens (Token.scan leftChain)).bare =
        ⟨⟨[⟨.global, .chain source steps target ⟨0, 0⟩⟩]⟩, linkFaults read⟩) ∧
    a.diagnostics.map Diagnostic.bare = b.diagnostics.map Diagnostic.bare ∧
      a.graph? = b.graph? := by
  have hlinks : ∀ l ∈ fadeLinks, ReadsAlone l := by
    simp only [fadeLinks, List.forall_mem_cons]
    refine ⟨readsAlone_of_nil ⟨0, 0⟩ ?_ ?_, readsAlone_of_nil ⟨0, 0⟩ ?_ ?_,
      readsAlone_of_nil ⟨0, 0⟩ ?_ ?_, fun l hl => absurd hl List.not_mem_nil⟩
    all_goals cbv
  have hways : ∀ way ∈ [Operator.arrow], way = .arrow ∨ way = .backArrow := by decide
  have hright : (Token.scan rightChain).map Token.kind =
      chainKinds (List.replicate 2 .arrow) fadeLinks := by cbv
  have hleft : (Token.scan leftChain).map Token.kind =
      chainKinds [.backArrow, .arrow] fadeLinks.reverse := by cbv
  obtain ⟨hchain, hcompile⟩ := ofText_bothWays (α := Float) Library.standard.catalog .standard
    hlinks rfl hways hright hleft
  have hfront : Begun (Token.scan voiceText) :=
    ⟨[⟨.keyword .endVoice, ⟨0, 0⟩⟩], .inr ⟨_, rfl⟩, by cbv⟩
  have hstart :
      startsLine ((Token.scan rightChain ++ Token.scan "endvoice").map Token.kind) = true ∧
      startsLine ((Token.scan leftChain ++ Token.scan "endvoice").map Token.kind) = true := by
    constructor
    · cbv
    · cbv
  have hback : startsLine ((Token.scan "endvoice").map Token.kind) = true := by cbv
  have hsource : (Token.scan (inVoice rightChain)).map Token.kind =
      (Token.scan voiceText ++ Token.scan rightChain ++ Token.scan "endvoice").map Token.kind := by
    cbv
  have hother : (Token.scan (inVoice leftChain)).map Token.kind =
      (Token.scan voiceText ++ Token.scan leftChain ++ Token.scan "endvoice").map Token.kind := by
    cbv
  have hcompiled := hcompile _ _ _ _ hfront (.inr hstart) hback hsource hother
  exact ⟨hlinks, hchain, hcompiled.1, hcompiled.2.2 rfl⟩

end Patchbay.Compilation
