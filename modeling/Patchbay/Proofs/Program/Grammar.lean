import Patchbay.Program.Basic
import Patchbay.Token.Basic

/-! The grammar of patch texts: which tokens are which program. Each rule uses every token once and
in order, and gives each part the place of the tokens it is made of. -/
namespace Patchbay

/-- Whether a signal can be read from an expression of this form. -/
def Expr.isReadable : Expr → Bool
  | socket .. => false
  | error _ | number .. | unary .. | binary .. | mapping .. | construction _ | output .. | name _ =>
    true

/-- Whether a signal can be sent to an expression of this form. What could not be read may stand
anywhere. -/
def Expr.isWritable : Expr → Bool
  | error _ | construction _ | socket .. | name _ => true
  | number .. | unary .. | binary .. | mapping .. | output .. => false

/-- The token of a sign. -/
def Sign.kind : Sign → Token.Kind
  | plus => .operator .plus
  | minus => .operator .minus

namespace Grammar
open Token (Kind)

/-- The operators of sums and their tokens. -/
inductive IsSumOp : BinaryOp → Kind → Prop
  | add : IsSumOp .add (.operator .plus)
  | subtract : IsSumOp .subtract (.operator .minus)

/-- The tokens in front of the ends of an interval. -/
inductive Opens : Polarity → List Token → Prop
  | unipolar (bracket) : Opens .unipolar [⟨.mark .openBracket, bracket⟩]
  | bipolar (bi bracket) : Opens .bipolar [⟨.keyword .bi, bi⟩, ⟨.mark .openBracket, bracket⟩]

mutual

/-- The smallest expressions, and any expression in parentheses. -/
inductive Atom : List Token → Expr → Prop
  | number (value unit span) : Atom [⟨.number value unit, span⟩] (.number value unit span)
  | name (name span) : Atom [⟨.name name, span⟩] (.name ⟨name, span⟩)
  | socket (object span dot socket socketSpan) :
    Atom [⟨.name object, span⟩, ⟨.mark .dot, dot⟩, ⟨.name socket, socketSpan⟩]
      (.socket ⟨object, span⟩ ⟨socket, socketSpan⟩ (span.join socketSpan))
  | output (object span colon output outputSpan) :
    Atom [⟨.name object, span⟩, ⟨.mark .colon, colon⟩, ⟨.name output, outputSpan⟩]
      (.output ⟨object, span⟩ ⟨output, outputSpan⟩ (span.join outputSpan))
  | parens {ts e} (left right) (h : Sum ts e) :
    Atom (⟨.mark .openParen, left⟩ :: ts ++ [⟨.mark .closeParen, right⟩])
      (e.withSpan (left.join right))
  | anonymous {ts args close} (span className classSpan) (h : Args ts args close) :
    Atom (⟨.keyword .new, span⟩ :: ⟨.name className, classSpan⟩ :: ts)
      (.construction ⟨⟨className, classSpan⟩, none, args, span.join close⟩)
  | named {ts args close} (className span name nameSpan) (h : Args ts args close) :
    Atom (⟨.name className, span⟩ :: ⟨.name name, nameSpan⟩ :: ts)
      (.construction ⟨⟨className, span⟩, some ⟨name, nameSpan⟩, args, span.join close⟩)

/-- An atom with any number of mappings behind it. -/
inductive Mapped : List Token → Expr → Prop
  | atom {ts e} (h : Atom ts e) : Mapped ts e
  | mapping {ts us vs ws source low high polarity} (comma close) (h : Mapped ts source)
    (hr : source.isReadable = true) (ho : Opens polarity us) (hl : Sum vs low) (hh : Sum ws high) :
    Mapped (ts ++ us ++ vs ++ ⟨.mark .comma, comma⟩ :: ws ++ [⟨.mark .closeBracket, close⟩])
      (.mapping polarity source low high (source.span.join close))

/-- Signs in front, which take all mappings with them. -/
inductive Factor : List Token → Expr → Prop
  | mapped {ts e} (h : Mapped ts e) : Factor ts e
  | signed {ts e} (sign span) (h : Factor ts e) (hr : e.isReadable = true) :
    Factor (⟨sign.kind, span⟩ :: ts) (.unary sign e (span.join e.span))

inductive Product : List Token → Expr → Prop
  | factor {ts e} (h : Factor ts e) : Product ts e
  | times {ts us left right} (star) (hl : Product ts left) (hr : Factor us right) :
    Product (ts ++ ⟨.operator .star, star⟩ :: us)
      (.binary .multiply left right (left.span.join right.span))

/-- Any expression. -/
inductive Sum : List Token → Expr → Prop
  | product {ts e} (h : Product ts e) : Sum ts e
  | plus {ts us left right op kind} (span) (ho : IsSumOp op kind) (hl : Sum ts left)
    (hr : Product us right) :
    Sum (ts ++ ⟨kind, span⟩ :: us) (.binary op left right (left.span.join right.span))

/-- Arguments in parentheses, and the place where they close. -/
inductive Args : List Token → List (Arg Expr) → Span → Prop
  | none (left close) : Args [⟨.mark .openParen, left⟩, ⟨.mark .closeParen, close⟩] [] close
  | some {ts args} (left close) (h : ArgList ts args) :
    Args (⟨.mark .openParen, left⟩ :: ts ++ [⟨.mark .closeParen, close⟩]) args close

/-- Arguments with commas between them. -/
inductive ArgList : List Token → List (Arg Expr) → Prop
  | one {ts arg} (h : Argument ts arg) : ArgList ts [arg]
  | more {ts us arg args} (comma) (h : Argument ts arg) (hs : ArgList us args) :
    ArgList (ts ++ ⟨.mark .comma, comma⟩ :: us) (arg :: args)

inductive Argument : List Token → Arg Expr → Prop
  | positional {ts e} (h : Sum ts e) (hr : e.isReadable = true) : Argument ts ⟨none, e⟩
  | labelled {ts e} (dot socket span assign) (h : Sum ts e) (hr : e.isReadable = true) :
    Argument (⟨.mark .dot, dot⟩ :: ⟨.name socket, span⟩ :: ⟨.operator .assign, assign⟩ :: ts)
      ⟨some ⟨⟨socket, span⟩, span.join e.span⟩, e⟩

end

/-- Expressions, each behind an arrow. In a chain written backward the arrows behind the first may
point either way. -/
inductive Links (backward : Bool) : List Token → List Expr → Prop
  | nil : Links backward [] []
  | cons {ts us way e es} (span) (ha : way = .arrow ∨ backward = true ∧ way = .backArrow)
    (h : Sum ts e) (hs : Links backward us es) :
    Links backward (⟨.operator way, span⟩ :: ts ++ us) (e :: es)

/-- The links of a chain from its source to its target: all but the last are read, and all but the
first are written to. -/
structure Connected (links : List Expr) : Prop where
  readable : ∀ e ∈ links.dropLast, e.isReadable = true
  writable : ∀ e ∈ links.tail, e.isWritable = true

theorem connected_iff {links : List Expr} : Connected links ↔
    ∀ (i : Nat) (e : Expr), links[i]? = some e →
      (i + 1 < links.length → e.isReadable = true) ∧ (0 < i → e.isWritable = true) := by
  constructor
  · intro h i e he
    constructor
    · intro hi
      apply h.readable
      apply List.mem_of_getElem? (i := i)
      rw [List.getElem?_dropLast, if_pos (by omega), he]
    · intro hi
      apply h.writable
      apply List.mem_of_getElem? (i := i - 1)
      rw [List.getElem?_tail, Nat.sub_add_cancel hi, he]
  · intro h
    constructor
    · intro e he
      obtain ⟨i, hi⟩ := List.getElem?_of_mem he
      rw [List.getElem?_dropLast] at hi
      split at hi
      · next hlt => exact (h i e hi).1 (by omega)
      · cases hi
    · intro e he
      obtain ⟨i, hi⟩ := List.getElem?_of_mem he
      rw [List.getElem?_tail] at hi
      exact (h (i + 1) e hi).2 (Nat.succ_pos i)

/-- The place that covers links in the order in which they are written. -/
def spanOf (first : Expr) (others : List Expr) : Span :=
  others.foldl (fun span e => span.join e.span) first.span

inductive Sentence : List Token → Statement → Prop
  | definition {ts value} (name span assign) (h : Sum ts value) :
    Sentence (⟨.name name, span⟩ :: ⟨.operator .assign, assign⟩ :: ts)
      (.definition ⟨name, span⟩ value (span.join value.span))
  | construction {ts c} (h : Sum ts (.construction c)) : Sentence ts (.construction c)
  | forward {ts us source steps target} (h : Sum ts source)
    (hs : Links false us (steps ++ [target])) (hc : Connected (source :: steps ++ [target])) :
    Sentence (ts ++ us) (.chain source steps target (spanOf source (steps ++ [target])))
  | backward {ts us vs source steps target second others} (arrow) (h : Sum ts target)
    (h' : Sum us second) (hs : Links true vs others)
    (hr : second :: others = (source :: steps).reverse)
    (hc : Connected (source :: steps ++ [target])) :
    Sentence (ts ++ ⟨.operator .backArrow, arrow⟩ :: us ++ vs)
      (.chain source steps target (spanOf target (second :: others)))

/-- Statements one after another, all in one scope. -/
inductive Lines (scope : Scope) : List Token → List Line → Prop
  | nil : Lines scope [] []
  | cons {ts us statement lines} (h : Sentence ts statement) (hs : Lines scope us lines) :
    Lines scope (ts ++ us) (⟨scope, statement⟩ :: lines)

/-- A whole text: global lines, with at most one voice block among them. -/
inductive Text : List Token → Program → Prop
  | global {ts lines} (h : Lines .global ts lines) : Text ts ⟨lines⟩
  | voice {ts us vs before inside after} (opened closed) (hb : Lines .global ts before)
    (hi : Lines .voice us inside) (ha : Lines .global vs after) :
    Text (ts ++ ⟨.keyword .startVoice, opened⟩ :: us ++ ⟨.keyword .endVoice, closed⟩ :: vs)
      ⟨before ++ inside ++ after⟩

variable {ts : List Token} {e : Expr}

theorem Atom.ne_nil (h : Atom ts e) : ts ≠ [] := by
  cases h <;> simp

theorem Mapped.ne_nil (h : Mapped ts e) : ts ≠ [] := by
  cases h with
  | atom h => exact h.ne_nil
  | mapping comma close h hr ho hl hh => simp

theorem Factor.ne_nil (h : Factor ts e) : ts ≠ [] := by
  cases h with
  | mapped h => exact h.ne_nil
  | signed sign span h hr => simp

theorem Product.ne_nil (h : Product ts e) : ts ≠ [] := by
  cases h with
  | factor h => exact h.ne_nil
  | times star hl hr => simp

theorem Sum.ne_nil (h : Sum ts e) : ts ≠ [] := by
  cases h with
  | product h => exact h.ne_nil
  | plus span ho hl hr => simp

theorem Sentence.ne_nil {s : Statement} (h : Sentence ts s) : ts ≠ [] := by
  cases h with
  | definition name span assign h => simp
  | construction h => exact h.ne_nil
  | forward h hs hc => simp [h.ne_nil]
  | backward arrow h h' hs hr hc => simp

end Grammar
end Patchbay
