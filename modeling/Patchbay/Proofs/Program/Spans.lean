import Patchbay.Program.Basic

/-! Places within places. A node is nested if it lies between two offsets and each node in it covers
its parts. -/
namespace Patchbay

/-- The span lies between two offsets, and does not end before it starts. -/
structure Span.Within (low high : Nat) (s : Span) : Prop where
  start : low ≤ s.start
  order : s.start ≤ s.stop
  stop : s.stop ≤ high

namespace Span.Within
variable {low low' high high' : Nat} {a b : Span}

theorem mono (h : a.Within low high) (hl : low' ≤ low) (hh : high ≤ high') :
    a.Within low' high' := ⟨Nat.le_trans hl h.start, h.order, Nat.le_trans h.stop hh⟩

theorem upTo (h : a.Within low high) (hh : high ≤ high') : a.Within low high' :=
  h.mono (Nat.le_refl _) hh

theorem downTo (h : a.Within low high) (hl : low' ≤ low) : a.Within low' high :=
  h.mono hl (Nat.le_refl _)

theorem le (h : a.Within low high) : low ≤ high :=
  Nat.le_trans h.start (Nat.le_trans h.order h.stop)

/-- A part of a part. -/
theorem trans (h : a.Within b.start b.stop) (hb : b.Within low high) : a.Within low high :=
  h.mono hb.start hb.stop

theorem join (ha : a.Within low high) (hb : b.Within low high) : (a.join b).Within low high :=
  ⟨Nat.le_min.mpr ⟨ha.start, hb.start⟩,
    Nat.le_trans (Nat.min_le_left _ _) (Nat.le_trans ha.order (Nat.le_max_left _ _)),
    Nat.max_le.mpr ⟨ha.stop, hb.stop⟩⟩

/-- Two spans one behind the other. -/
theorem append {middle middle' : Nat} (ha : a.Within low middle) (hb : b.Within middle' high)
    (hle : middle ≤ middle') : (a.join b).Within low high := by
  obtain ⟨hlow, hfirst, hmiddle⟩ := ha
  obtain ⟨hmiddle', hsecond, hhigh⟩ := hb
  refine join ⟨hlow, hfirst, ?_⟩ ⟨?_, hsecond, hhigh⟩ <;> omega

/-- What stands between two spans. -/
theorem between {c : Span} {first last : Nat} (h : c.Within first last) (ha : a.stop ≤ first)
    (hb : last ≤ b.start) (hfirst : a.start ≤ a.stop) (hlast : b.start ≤ b.stop) :
    c.Within (a.join b).start (a.join b).stop :=
  h.mono (Nat.le_trans (Nat.min_le_left _ _) (Nat.le_trans hfirst ha))
    (Nat.le_trans hb (Nat.le_trans hlast (Nat.le_max_right _ _)))

theorem left (h : a.Within low high) (b : Span) : a.Within (a.join b).start (a.join b).stop :=
  ⟨Nat.min_le_left _ _, h.order, Nat.le_max_left _ _⟩

theorem right (h : b.Within low high) (a : Span) : b.Within (a.join b).start (a.join b).stop :=
  ⟨Nat.min_le_right _ _, h.order, Nat.le_max_right _ _⟩

/-- A join of spans lies where they do, and covers each of them. -/
theorem foldl_join {spans : List Span} (ha : a.Within low high)
    (h : ∀ s ∈ spans, s.Within low high) :
    (spans.foldl Span.join a).Within low high ∧
      ∀ s ∈ a :: spans, s.Within (spans.foldl Span.join a).start (spans.foldl Span.join a).stop := by
  induction spans generalizing a with
  | nil =>
    exact ⟨ha, List.forall_mem_singleton.mpr ⟨Nat.le_refl _, ha.order, Nat.le_refl _⟩⟩
  | cons s rest ih =>
    obtain ⟨hs, hrest⟩ := List.forall_mem_cons.mp h
    obtain ⟨hall, hcovers⟩ := ih (ha.join hs) hrest
    obtain ⟨hfirst, hcovers⟩ := List.forall_mem_cons.mp hcovers
    exact ⟨hall, List.forall_mem_cons.mpr ⟨(ha.left s).trans hfirst,
      List.forall_mem_cons.mpr ⟨(hs.right a).trans hfirst, hcovers⟩⟩⟩

end Span.Within

/-- The place, if there is one, lies between two offsets. -/
def PlaceWithin (low high : Nat) (place : Option Span) : Prop :=
  ∀ span ∈ place, span.Within low high

theorem placeWithin_some {low high : Nat} {span : Span} (h : span.Within low high) :
    PlaceWithin low high (some span) := by
  rintro _ ⟨⟩
  exact h

theorem placeWithin_none {low high : Nat} : PlaceWithin low high none := fun span hs => by cases hs

/-- The place of a fault, if it has one, lies between two offsets. -/
abbrev Located.Within {ε : Type} (low high : Nat) (f : Located ε) : Prop :=
  PlaceWithin low high f.span

mutual

/-- The expression lies between two offsets, and each node in it covers its parts. -/
def Expr.Nested (low high : Nat) : Expr → Prop
  | .error span | .number _ _ span => span.Within low high
  | .unary _ operand span => span.Within low high ∧ operand.Nested span.start span.stop
  | .binary _ left right span =>
    span.Within low high ∧ left.Nested span.start span.stop ∧ right.Nested span.start span.stop
  | .mapping _ source bottom top span =>
    span.Within low high ∧ source.Nested span.start span.stop ∧
      bottom.Nested span.start span.stop ∧ top.Nested span.start span.stop
  | .construction c => c.Nested low high
  | .socket object member span | .output object member span =>
    span.Within low high ∧ object.span.Within span.start span.stop ∧
      member.span.Within span.start span.stop
  | .name ident => ident.span.Within low high

def Construction.Nested (low high : Nat) : Construction Expr → Prop
  | ⟨className, name, args, span⟩ =>
    span.Within low high ∧ className.span.Within span.start span.stop ∧
      (∀ ident ∈ name, ident.span.Within span.start span.stop) ∧
      Construction.ArgsNested span.start span.stop args

def Construction.ArgsNested (low high : Nat) : List (Arg Expr) → Prop
  | [] => True
  | ⟨none, value⟩ :: rest => value.Nested low high ∧ Construction.ArgsNested low high rest
  | ⟨some label, value⟩ :: rest =>
    (label.span.Within low high ∧ label.socket.span.Within label.span.start label.span.stop ∧
      value.Nested label.span.start label.span.stop) ∧ Construction.ArgsNested low high rest

end

/-- The argument lies between two offsets. A label covers the whole of it. -/
def Arg.Nested (low high : Nat) (a : Arg Expr) : Prop :=
  match a.label with
  | none => a.value.Nested low high
  | some label => label.span.Within low high ∧
    label.socket.span.Within label.span.start label.span.stop ∧
      a.value.Nested label.span.start label.span.stop

def Statement.Nested (low high : Nat) : Statement → Prop
  | .error span => span.Within low high
  | .definition name value span =>
    span.Within low high ∧ name.span.Within span.start span.stop ∧
      value.Nested span.start span.stop
  | .construction c => c.Nested low high
  | .chain source steps target span =>
    span.Within low high ∧ source.Nested span.start span.stop ∧
      (∀ step ∈ steps, step.Nested span.start span.stop) ∧ target.Nested span.start span.stop

theorem Construction.argsNested_iff {low high : Nat} {args : List (Arg Expr)} :
    Construction.ArgsNested low high args ↔ ∀ a ∈ args, a.Nested low high := by
  induction args with
  | nil => exact ⟨fun _ => List.forall_mem_nil _, fun _ => trivial⟩
  | cons a rest ih =>
    obtain ⟨_ | label, value⟩ := a <;>
      rw [Construction.ArgsNested, List.forall_mem_cons, ih] <;> rfl

namespace Expr.Nested
variable {low low' high high' : Nat} {e : Expr}

theorem span (h : e.Nested low high) : e.span.Within low high := by
  cases e with
  | error | number | name => exact h
  | unary | binary | mapping | socket | output => exact h.1
  | construction c =>
    obtain ⟨_, _, _, _⟩ := c
    exact h.1

/-- Where a node lies is told by its own place, and by nothing below it. -/
theorem of_span (h : e.Nested low high) (hspan : e.span.Within low' high') :
    e.Nested low' high' := by
  cases e with
  | error | number | name => exact hspan
  | unary | binary | mapping | socket | output => exact ⟨hspan, h.2⟩
  | construction c =>
    obtain ⟨_, _, _, _⟩ := c
    exact ⟨hspan, h.2⟩

theorem mono (h : e.Nested low high) (hl : low' ≤ low) (hh : high ≤ high') :
    e.Nested low' high' := h.of_span (h.span.mono hl hh)

theorem upTo (h : e.Nested low high) (hh : high ≤ high') : e.Nested low high' :=
  h.mono (Nat.le_refl _) hh

theorem trans {outer : Span} (h : e.Nested outer.start outer.stop)
    (houter : outer.Within low high) : e.Nested low high := h.mono houter.start houter.stop

theorem left (h : e.Nested low high) (b : Span) :
    e.Nested (e.span.join b).start (e.span.join b).stop := h.of_span (h.span.left b)

theorem right (h : e.Nested low high) (a : Span) :
    e.Nested (a.join e.span).start (a.join e.span).stop := h.of_span (h.span.right a)

end Expr.Nested

namespace Arg.Nested
variable {low low' high high' : Nat} {a : Arg Expr}

/-- The value of an argument lies where the argument does. -/
theorem value (h : a.Nested low high) : a.value.Nested low high := by
  obtain ⟨_ | label, value⟩ := a
  · exact h
  · exact h.2.2.trans h.1

theorem mono (h : a.Nested low high) (hl : low' ≤ low) (hh : high ≤ high') :
    a.Nested low' high' := by
  obtain ⟨_ | label, value⟩ := a
  · exact Expr.Nested.mono h hl hh
  · exact ⟨h.1.mono hl hh, h.2⟩

theorem upTo (h : a.Nested low high) (hh : high ≤ high') : a.Nested low high' :=
  h.mono (Nat.le_refl _) hh

theorem downTo (h : a.Nested low high) (hl : low' ≤ low) : a.Nested low' high :=
  h.mono hl (Nat.le_refl _)

end Arg.Nested

theorem Construction.ArgsNested.mono {low low' high high' : Nat} {args : List (Arg Expr)}
    (h : ArgsNested low high args) (hl : low' ≤ low) (hh : high ≤ high') :
    ArgsNested low' high' args :=
  argsNested_iff.mpr fun a ha => (argsNested_iff.mp h a ha).mono hl hh

/-- At a place that covers the old one the expression still covers its parts. -/
theorem Expr.Nested.withSpan {low low' high high' : Nat} {e : Expr} (h : e.Nested low high)
    {outer : Span} (hcovers : e.span.Within outer.start outer.stop)
    (houter : outer.Within low' high') : (e.withSpan outer).Nested low' high' := by
  cases e with
  | error | number | name => exact houter
  | unary sign operand span => exact ⟨houter, h.2.trans hcovers⟩
  | binary op left right span => exact ⟨houter, h.2.1.trans hcovers, h.2.2.trans hcovers⟩
  | mapping polarity source bottom top span =>
    exact ⟨houter, h.2.1.trans hcovers, h.2.2.1.trans hcovers, h.2.2.2.trans hcovers⟩
  | socket | output => exact ⟨houter, h.2.1.trans hcovers, h.2.2.trans hcovers⟩
  | construction c =>
    obtain ⟨className, name, args, span⟩ := c
    obtain ⟨_, hclass, hname, hargs⟩ := h
    exact ⟨houter, hclass.trans hcovers, fun ident hi => (hname ident hi).trans hcovers,
      hargs.mono hcovers.start hcovers.stop⟩

theorem Statement.Nested.mono {low low' high high' : Nat} {s : Statement} (h : s.Nested low high)
    (hl : low' ≤ low) (hh : high ≤ high') : s.Nested low' high' := by
  cases s with
  | error => exact Span.Within.mono h hl hh
  | definition | chain => exact ⟨h.1.mono hl hh, h.2⟩
  | construction c => exact Expr.Nested.mono (e := .construction c) h hl hh

end Patchbay
