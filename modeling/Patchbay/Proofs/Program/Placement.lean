import Patchbay.Proofs.Program.ErrorFree
import Patchbay.Proofs.Program.Spans

/-! Places that reading gives. Whatever the tokens are, each node lies in the text and covers its
parts, and so it is behind a fault, where reading goes on from a place further on. -/
namespace Patchbay.Program
open Account (Skips)
variable {ts us mid rest : List Token} {size low high : Nat}

/-- Where the tokens start; the given offset if there are none. -/
def front (size : Nat) : List Token → Nat
  | [] => size
  | t :: _ => t.span.start

/-- The tokens stand one behind the other, and end by the given offset. -/
def Laid (size : Nat) : List Token → Prop
  | [] => True
  | t :: rest => t.span.start ≤ t.span.stop ∧ t.span.stop ≤ front size rest ∧ Laid size rest

theorem Laid.tail {t : Token} (h : Laid size (t :: ts)) : Laid size ts := h.2.2

theorem Laid.head {t : Token} (h : Laid size (t :: ts)) :
    t.span.Within (front size (t :: ts)) (front size ts) := ⟨Nat.le_refl _, h.1, h.2.1⟩

theorem Laid.front_le_tail {t : Token} (h : Laid size (t :: ts)) :
    front size (t :: ts) ≤ front size ts := Nat.le_trans h.1 h.2.1

theorem Laid.front_le (h : Laid size ts) : front size ts ≤ size := by
  induction ts with
  | nil => exact Nat.le_refl _
  | cons t rest ih => exact Nat.le_trans h.front_le_tail (ih h.tail)

theorem Laid.suffix (h : Laid size ts) (hs : us <:+ ts) :
    Laid size us ∧ front size ts ≤ front size us := by
  obtain ⟨before, rfl⟩ := hs
  induction before with
  | nil => exact ⟨h, Nat.le_refl _⟩
  | cons t before ih => exact ⟨(ih h.tail).1, Nat.le_trans h.front_le_tail (ih h.tail).2⟩

/-- The next token is where the tokens start. -/
theorem Laid.upcoming (h : Laid size ts) :
    (upcoming ⟨size, size⟩ ts).Within (front size ts) size := by
  cases ts with
  | nil => exact ⟨Nat.le_refl _, Nat.le_refl _, Nat.le_refl _⟩
  | cons t rest => exact h.head.upTo h.tail.front_le

/-- The place of a fault lies in the text. A fault without a place is the end of the text. -/
def Told (size : Nat) (f : Located Fault) : Prop :=
  f.Within 0 size ∧ (f.span = none → f.fault = .unexpectedEnd)

theorem told_some {fault : Fault} {span : Span} (h : span.Within low size) :
    Told size ⟨fault, some span⟩ :=
  ⟨placeWithin_some (h.downTo (Nat.zero_le _)), fun hnone => by cases hnone⟩

/-- A place behind a failure that takes in where it arose. -/
def TakesIn (size : Nat) (ts : List Token) (high : Nat) (close : Span) : Prop :=
  close.Within (front size ts) high ∧ (upcoming ⟨size, size⟩ ts).stop ≤ close.stop

/-- What is skipped takes in the next token, and all of it comes before the tokens left. -/
private theorem within_skipGroup (ht : Laid size ts) {last close : Span}
    (hlast : ts = [] → last.Within low size) (h : (skipGroup last ts).result = .ok close) :
    close.Within (upcoming last ts).start (front size (skipGroup last ts).rest) ∧
      (upcoming last ts).stop ≤ close.stop := by
  induction ts generalizing last low with
  | nil =>
    cases h
    exact ⟨⟨Nat.le_refl _, (hlast rfl).order, (hlast rfl).stop⟩, Nat.le_refl _⟩
  | cons t rest ih =>
    rw [skipGroup] at h ⊢
    split at h
    · next hclose =>
      cases h
      rw [if_pos hclose]
      exact ⟨ht.head, Nat.le_refl _⟩
    · next hclose =>
      rw [if_neg hclose]
      have hend : rest = [] → t.span.Within t.span.start size := by
        rintro rfl
        exact ht.head
      have hnext : t.span.start ≤ (upcoming t.span rest).start ∧
          t.span.stop ≤ (upcoming t.span rest).stop := by
        cases rest with
        | nil => exact ⟨Nat.le_refl _, Nat.le_refl _⟩
        | cons u rest => exact ⟨ht.front_le_tail, Nat.le_trans ht.2.1 ht.tail.1⟩
      obtain ⟨hwithin, hstop⟩ := ih ht.tail hend h
      exact ⟨hwithin.downTo hnext.1, Nat.le_trans hnext.2 hstop⟩

private theorem takesIn_of_skips {close : Span} (ht : Laid size ts)
    (h : Skips ⟨size, size⟩ ts rest close) : TakesIn size ts (front size rest) close := by
  have hstart : (upcoming ⟨size, size⟩ ts).start = front size ts := by cases ts <;> rfl
  have hlast : ts = [] → (⟨size, size⟩ : Span).Within 0 size := fun _ =>
    ⟨Nat.zero_le _, Nat.le_refl _, Nat.le_refl _⟩
  have hskip := within_skipGroup ht hlast h.result
  rwa [hstart, h.rest] at hskip

/-- Where the failure arose lies in front of what was skipped. -/
theorem TakesIn.upcoming {high : Nat} {close : Span} (h : TakesIn size ts high close)
    (ht : Laid size ts) : (upcoming ⟨size, size⟩ ts).Within (front size ts) close.stop :=
  ⟨ht.upcoming.start, ht.upcoming.order, h.2⟩

/-- Arguments up to the place that ends them. -/
private def ArgsFrom (low high : Nat) (as : List (Arg Expr) × Span) : Prop :=
  as.2.Within low high ∧ ∀ a ∈ as.1, a.Nested low as.2.stop

/-- The two ends of an interval up to the place that ends it. -/
private def IntervalFrom (low high : Nat) (i : Expr × Expr × Span) : Prop :=
  i.2.2.Within low high ∧ i.1.Nested low i.2.2.stop ∧ i.2.1.Nested low i.2.2.stop

private theorem told_unreadable {l : Link} {high : Nat} (h : l.expr.Nested low high)
    (hh : high ≤ size) : ∀ f ∈ l.unreadable, Told size f := by
  rw [Link.unreadable]
  split
  · exact List.forall_mem_nil _
  · exact List.forall_mem_singleton.mpr (told_some (h.span.upTo hh))

private theorem told_unwritable {l : Link} {high : Nat} (h : l.expr.Nested low high)
    (hh : high ≤ size) : ∀ f ∈ l.unwritable, Told size f := by
  rw [Link.unwritable]
  split
  · exact List.forall_mem_nil _
  · exact List.forall_mem_singleton.mpr (told_some (h.span.upTo hh))

private theorem nested_binary {left right : Link} {middle middle' high : Nat} (op : BinaryOp)
    (hl : left.expr.Nested low middle) (hr : right.expr.Nested middle' high)
    (hle : middle ≤ middle') : (Link.binary op left right).expr.Nested low high :=
  ⟨hl.span.append hr.span hle, hl.left _, hr.right _⟩

private theorem nested_mapping {source : Link} {i : Expr × Expr × Span} {middle middle' high : Nat}
    (polarity : Polarity) (hs : source.expr.Nested low middle) (hi : IntervalFrom middle' high i)
    (hle : middle ≤ middle') :
    (Expr.mapping polarity source.expr i.1 i.2.1 (source.expr.span.join i.2.2)).Nested low high := by
  obtain ⟨hclose, hbottom, htop⟩ := hi
  have hstart : (source.expr.span.join i.2.2).start ≤ middle' :=
    Nat.le_trans (Nat.min_le_left _ _)
      (Nat.le_trans hs.span.order (Nat.le_trans hs.span.stop hle))
  have hstop : i.2.2.stop ≤ (source.expr.span.join i.2.2).stop := Nat.le_max_right _ _
  exact ⟨hs.span.append hclose hle, hs.left _, hbottom.mono hstart hstop, htop.mono hstart hstop⟩

private theorem nested_construction {first : Span} {className : Ident} {name : Option Ident}
    {as : List (Arg Expr) × Span} {middle high : Nat} (hfirst : first.Within low middle)
    (hclass : className.span.Within first.start middle)
    (hname : ∀ ident ∈ name, ident.span.Within first.start middle)
    (has : ArgsFrom middle high as) :
    (Expr.construction ⟨className, name, as.1, first.join as.2⟩).Nested low high := by
  obtain ⟨hclose, hargs⟩ := has
  have hstart : (first.join as.2).start ≤ first.start := Nat.min_le_left _ _
  have hstop : as.2.stop ≤ (first.join as.2).stop := Nat.le_max_right _ _
  have hmiddle : middle ≤ (first.join as.2).stop :=
    Nat.le_trans hclose.start (Nat.le_trans hclose.order hstop)
  refine ⟨hfirst.append hclose (Nat.le_refl _), hclass.mono hstart hmiddle,
    fun ident hi => (hname ident hi).mono hstart hmiddle,
    Construction.argsNested_iff.mpr fun a ha => (hargs a ha).mono ?_ hstop⟩
  exact Nat.le_trans hstart (Nat.le_trans hfirst.order hfirst.stop)

private theorem ArgsFrom.cons {middle middle' : Nat} {a : Arg Expr} {as : List (Arg Expr) × Span}
    (ha : a.Nested low middle) (has : ArgsFrom middle' high as) (hle : middle ≤ middle') :
    ArgsFrom low high (a :: as.1, as.2) := by
  have hlow := Nat.le_trans ha.value.span.le hle
  refine ⟨has.1.downTo hlow, List.forall_mem_cons.mpr ⟨?_, fun b hb => (has.2 b hb).downTo hlow⟩⟩
  exact ha.upTo (Nat.le_trans hle (Nat.le_trans has.1.start has.1.order))

private theorem argsFrom_singleton {middle : Nat} {a : Arg Expr} {close : Span}
    (ha : a.Nested low middle) (hc : close.Within middle high) : ArgsFrom low high ([a], close) := by
  have hnone : ArgsFrom middle high ([], close) := ⟨hc, List.forall_mem_nil _⟩
  exact ArgsFrom.cons ha hnone (Nat.le_refl _)

/-- A chain covers its links, whichever way it was written. -/
private theorem nested_chainOf (backward : Bool) {first second : Link} {more : List Link}
    {high : Nat} (h : ∀ l ∈ first :: second :: more, l.expr.Nested low high) :
    (chainOf backward first second more).1.Nested low high := by
  obtain ⟨hfirst, hothers⟩ := List.forall_mem_cons.mp h
  have hspans : ∀ s ∈ (second :: more).map fun l => l.expr.span, s.Within low high :=
    List.forall_mem_map.mpr fun l hl => (hothers l hl).span
  obtain ⟨hall, hcovers⟩ := hfirst.span.foldl_join hspans
  rw [List.foldl_map] at hall hcovers
  obtain ⟨hcover, hcovers⟩ := List.forall_mem_cons.mp hcovers
  have hcovers := List.forall_mem_map.mp hcovers
  have hnested := fun l hl => (hothers l hl).of_span (hcovers l hl)
  have hlast := hnested _ (List.getLast_mem (List.cons_ne_nil second more))
  have hbetween := List.forall_mem_map.mpr fun l hl =>
    hnested l (List.dropLast_subset (second :: more) hl)
  rw [chainOf]
  cases backward with
  | true =>
    exact ⟨hall, hlast, fun e he => hbetween e (List.mem_reverse.mp he), hfirst.of_span hcover⟩
  | false => exact ⟨hall, hfirst.of_span hcover, hbetween, hlast⟩

private theorem told_chainOf (backward : Bool) {first second : Link} {more : List Link}
    {high : Nat} (h : ∀ l ∈ first :: second :: more, l.expr.Nested low high) (hh : high ≤ size) :
    ∀ f ∈ (chainOf backward first second more).2, Told size f := by
  have told : ∀ links : List Link, (∀ l ∈ links, l ∈ first :: second :: more) →
      ∀ f ∈ linkFaults links, Told size f := by
    intro links hlinks f hf
    obtain ⟨⟨l, i⟩, hl, hf⟩ := List.mem_flatMap.mp hf
    have hnested := h l (hlinks l (List.mem_of_getElem? (List.mem_zipIdx_iff_getElem?.mp hl)))
    obtain hf | hf := List.mem_append.mp hf
    · exact told_unreadable hnested hh f (List.mem_ite_nil_right.mp hf).2
    · exact told_unwritable hnested hh f (List.mem_ite_nil_right.mp hf).2
  rw [chainOf]
  cases backward with
  | true => exact told _ fun l hl => List.mem_reverse.mp hl
  | false => exact told _ fun l hl => hl

/-- What was read lies in the text, and each node of it covers its parts. -/
structure Reading.Placed (size : Nat) (r : Reading) : Prop where
  lines : ∀ line ∈ r.program.lines, line.statement.Nested 0 size
  faults : ∀ f ∈ r.faults, Told size f

private theorem Block.placed_start {b : Block} (hb : ∀ s ∈ b.opened, s.Within 0 size) {span : Span}
    (hspan : span.Within 0 size) : (∀ s ∈ (b.start span).1.opened, s.Within 0 size) ∧
      ∀ f ∈ (b.start span).2, Told size f := by
  rw [Block.start]
  split
  · exact ⟨hb, List.forall_mem_singleton.mpr (told_some hspan)⟩
  · refine ⟨?_, fun f hf => ?_⟩
    · rintro _ ⟨⟩
      exact hspan
    · obtain rfl := List.mem_singleton.mp (List.mem_ite_nil_right.mp hf).2
      exact told_some hspan

private theorem Block.placed_close (b : Block) {span : Span} (hspan : span.Within 0 size) :
    (∀ s ∈ (b.close span).1.opened, s.Within 0 size) ∧ ∀ f ∈ (b.close span).2, Told size f := by
  refine ⟨fun s hs => (by cases hs), fun f hf => ?_⟩
  obtain rfl := List.mem_singleton.mp (List.mem_ite_nil_left.mp hf).2
  exact told_some hspan

private theorem told_place {e : Expr} {high : Nat} (fault : Fault) (h : e.Nested low high)
    (hh : high ≤ size) : ∀ f ∈ [(⟨fault, some e.span⟩ : Located Fault)], Told size f :=
  List.forall_mem_singleton.mpr (told_some (h.span.upTo hh))

/-- All that is read lies between the tokens it is read from on and those left behind it. -/
def placing (size : Nat) : Survey ⟨size, size⟩ where
  recovers := True
  laid := Laid size
  told faults := ∀ f ∈ faults, Told size f
  laid_tail := Laid.tail
  told_nil := List.forall_mem_nil _
  told_append h h' := List.forall_mem_append.mpr ⟨h, h'⟩
  told_end := by
    refine List.forall_mem_singleton.mpr ⟨?_, fun _ => rfl⟩
    rintro span ⟨⟩
  told_upcoming _ ht := List.forall_mem_singleton.mpr (told_some ht.upcoming)
  sum _ _ ts rest l := l.expr.Nested (front size ts) (front size rest)
  product _ _ ts rest l := l.expr.Nested (front size ts) (front size rest)
  factor _ _ ts rest l := l.expr.Nested (front size ts) (front size rest)
  mapped _ _ ts rest l := l.expr.Nested (front size ts) (front size rest)
  atom _ _ ts rest l := l.expr.Nested (front size ts) (front size rest)
  interval _ _ ts rest := IntervalFrom (front size ts) (front size rest)
  args _ _ ts rest := ArgsFrom (front size ts) (front size rest)
  argList _ _ ts rest := ArgsFrom (front size ts) (front size rest)
  arg _ _ ts rest a := a.Nested (front size ts) (front size rest)
  links _ _ ts rest links := front size ts ≤ front size rest ∧
    ∀ l ∈ links, l.expr.Nested (front size ts) (front size rest)
  statement _ ts rest s := s.Nested (front size ts) (front size rest)
  lines block _ faults lines := (∀ s ∈ block.opened, s.Within 0 size) →
    Reading.Placed size ⟨⟨lines⟩, faults⟩
  told_sum fault hrest h := told_place fault h hrest.front_le
  told_factor fault hrest h := told_place fault h hrest.front_le
  told_mapped fault hrest h := told_place fault h hrest.front_le
  ofProduct h := h
  plus ht _ hl hr := nested_binary _ hl hr ht.front_le_tail
  ofFactor h := h
  times ht hl hr := nested_binary _ hl hr ht.front_le_tail
  ofMapped _ h := h
  ofAtom _ h := h
  mapping ht _ hs hi := nested_mapping _ hs hi (ht.suffix (List.suffix_append _ _)).2
  ends ht hclose hl hh := by
    have hstop := Nat.le_trans hclose.head.start hclose.1
    have hlow := Nat.le_trans hl.span.le ht.front_le_tail
    have hmiddle := Nat.le_trans ht.front_le_tail (Nat.le_trans hh.span.le hstop)
    exact ⟨hclose.head.downTo (Nat.le_trans hlow hh.span.le), hl.upTo hmiddle, hh.mono hlow hstop⟩
  ends_lost _ ht hmid hskip := by
    obtain ⟨hlaid, hle⟩ := ht.suffix hmid
    have htakes := takesIn_of_skips hlaid hskip
    have hends := (htakes.upcoming hlaid).downTo hle
    exact ⟨htakes.1.downTo hle, hends, hends⟩
  number ht := ht.head
  name ht := ht.head
  socket ht := ⟨ht.head.append ht.tail.tail.head ht.tail.front_le_tail, ht.head.left _,
    ht.tail.tail.head.right _⟩
  output ht := ⟨ht.head.append ht.tail.tail.head ht.tail.front_le_tail, ht.head.left _,
    ht.tail.tail.head.right _⟩
  signed ht ho := ⟨ht.head.append ho.span (Nat.le_refl _), ho.right _⟩
  parens ht hclose hi := by
    have hcovers := hi.span.between ht.2.1 hclose.head.start ht.1 hclose.1
    exact hi.withSpan hcovers (ht.head.append hclose.head hi.span.le)
  parens_lost _ ht hmid hskip := by
    obtain ⟨hlaid, hle⟩ := ht.tail.suffix hmid
    exact ht.head.append (takesIn_of_skips hlaid hskip).1 hle
  anonymous ht has := by
    refine nested_construction (ht.head.upTo ht.tail.front_le_tail)
      (ht.tail.head.downTo (Nat.le_trans ht.1 ht.2.1)) ?_ has
    rintro ident ⟨⟩
  named ht has := by
    refine nested_construction (ht.head.upTo ht.tail.front_le_tail)
      (ht.head.upTo ht.tail.front_le_tail) ?_ has
    rintro ident ⟨⟩
    exact ht.tail.head.downTo ht.front_le_tail
  args_none ht := ⟨ht.tail.head.downTo ht.front_le_tail, List.forall_mem_nil _⟩
  args_some ht h := ⟨h.1.downTo ht.front_le_tail, fun a ha => (h.2 a ha).downTo ht.front_le_tail⟩
  argList_last ht ha := argsFrom_singleton ha ht.head
  argList_more ht ha has := ArgsFrom.cons ha has ht.front_le_tail
  argList_unclosed _ ht ha hskip := argsFrom_singleton ha (takesIn_of_skips ht hskip).1
  argList_lost _ ht hmid hskip := by
    obtain ⟨hlaid, hle⟩ := ht.suffix hmid
    have htakes := takesIn_of_skips hlaid hskip
    exact ⟨htakes.1.downTo hle, List.forall_mem_singleton.mpr ((htakes.upcoming hlaid).downTo hle)⟩
  positional h := h
  labelled ht h := by
    refine ⟨?_, ht.tail.head.left _, h.right _⟩
    exact (ht.tail.head.append h.span ht.tail.tail.front_le_tail).downTo ht.front_le_tail
  links_nil := ⟨Nat.le_refl _, List.forall_mem_nil _⟩
  links_cons ht hmid _ h hs := by
    have hle := Nat.le_trans ht.front_le_tail h.span.le
    exact ⟨Nat.le_trans hle hs.1, List.forall_mem_cons.mpr
      ⟨h.mono ht.front_le_tail hs.1, fun l hl => (hs.2 l hl).mono hle (Nat.le_refl _)⟩⟩
  definition ht h := ⟨ht.head.append h.span ht.tail.front_le_tail, ht.head.left _, h.right _⟩
  construct h hc := show Expr.Nested _ _ (.construction _) from hc ▸ h
  unexpressed _ h := h.span
  chain {backward _ _ _ _ _ _ _ first second more _} ht hmid hrest hf hs hm := by
    have hlow := Nat.le_trans hf.span.le ht.front_le_tail
    have hend := Nat.le_trans hs.span.le hm.1
    have hlinks : ∀ l ∈ first :: second :: more, l.expr.Nested _ _ :=
      List.forall_mem_cons.mpr ⟨hf.upTo (Nat.le_trans ht.front_le_tail hend),
        List.forall_mem_cons.mpr ⟨hs.mono hlow hm.1, fun l hl =>
          (hm.2 l hl).mono (Nat.le_trans hlow hs.span.le) (Nat.le_refl _)⟩⟩
    exact ⟨told_chainOf backward hlinks hrest.front_le, nested_chainOf backward hlinks⟩
  finished _ _ := ⟨List.forall_mem_nil _, List.forall_mem_nil _⟩
  unclosed _ hopened hb :=
    ⟨List.forall_mem_nil _, List.forall_mem_singleton.mpr (told_some (hb _ hopened))⟩
  start _ ht hl hb := by
    have hstart := Block.placed_start hb (ht.head.mono (Nat.zero_le _) ht.tail.front_le)
    obtain ⟨hlines, hfaults⟩ := hl hstart.1
    exact ⟨hlines, List.forall_mem_append.mpr ⟨hstart.2, hfaults⟩⟩
  close {block _ _ _ _} _ ht hl hb := by
    have hclose := Block.placed_close block (ht.head.mono (Nat.zero_le _) ht.tail.front_le)
    obtain ⟨hlines, hfaults⟩ := hl hclose.1
    exact ⟨hlines, List.forall_mem_append.mpr ⟨hclose.2, hfaults⟩⟩
  line htold hmid hs hl hb := by
    have hline := hs.mono (Nat.zero_le _) hmid.front_le
    exact ⟨List.forall_mem_cons.mpr ⟨hline, (hl hb).lines⟩,
      List.forall_mem_append.mpr ⟨htold, (hl hb).faults⟩⟩
  line_stuck htold ht hs hl hb := by
    have hline := hs.mono (Nat.zero_le _) ht.front_le
    exact ⟨List.forall_mem_cons.mpr ⟨hline, (hl hb).lines⟩,
      List.forall_mem_append.mpr ⟨htold, (hl hb).faults⟩⟩
  line_lost _ htold hmid hl hb :=
    ⟨List.forall_mem_cons.mpr ⟨hmid.upcoming.downTo (Nat.zero_le _), (hl hb).lines⟩,
      List.forall_mem_append.mpr ⟨htold, (hl hb).faults⟩⟩

theorem Reading.Placed.mono {r : Reading} {size' : Nat} (h : r.Placed size) (hle : size ≤ size') :
    r.Placed size' :=
  ⟨fun line hl => (h.lines line hl).mono (Nat.le_refl _) hle, fun f hf =>
    ⟨fun span hs => ((h.faults f hf).1 span hs).upTo hle, (h.faults f hf).2⟩⟩

theorem laid_of_pairwise (horder : ∀ t ∈ ts, t.span.start ≤ t.span.stop)
    (hapart : ts.Pairwise fun a b => a.span.stop ≤ b.span.start)
    (hsize : ∀ t ∈ ts, t.span.stop ≤ size) : Laid size ts := by
  induction ts with
  | nil => trivial
  | cons t rest ih =>
    obtain ⟨hfirst, horder⟩ := List.forall_mem_cons.mp horder
    obtain ⟨hnext, hapart⟩ := List.pairwise_cons.mp hapart
    obtain ⟨hlast, hsize⟩ := List.forall_mem_cons.mp hsize
    refine ⟨hfirst, ?_, ih horder hapart hsize⟩
    cases rest with
    | nil => exact hlast
    | cons u rest => exact hnext u List.mem_cons_self

/-- Tokens that stand apart and in order are read with all places in front of the given offset. -/
theorem placed_ofTokens (horder : ∀ t ∈ ts, t.span.start ≤ t.span.stop)
    (hapart : ts.Pairwise fun a b => a.span.stop ≤ b.span.start)
    (hsize : ∀ t ∈ ts, t.span.stop ≤ size) : (ofTokens ts).Placed size := by
  have hopened : ∀ {stop : Nat}, ∀ s ∈ (⟨none, false⟩ : Block).opened, s.Within 0 stop :=
    fun s hs => (by cases hs)
  rw [ofTokens]
  obtain rfl | ⟨front, last, rfl⟩ := List.eq_nil_or_concat ts
  · exact ((placing 0).lines_readLines _ [] trivial (.inl trivial) hopened).mono (Nat.zero_le _)
  · rw [List.concat_eq_append] at *
    have hlast := hsize last (List.mem_append_right _ List.mem_cons_self)
    have hlaid : Laid last.span.stop (front ++ [last]) := by
      refine laid_of_pairwise horder hapart (List.forall_mem_append.mpr ⟨fun t ht => ?_, ?_⟩)
      · have hbehind := (List.pairwise_append.mp hapart).2.2 t ht last List.mem_cons_self
        exact Nat.le_trans hbehind (horder last (List.mem_append_right _ List.mem_cons_self))
      · exact List.forall_mem_singleton.mpr (Nat.le_refl _)
    rw [List.getLast?_concat]
    exact ((placing _).lines_readLines _ _ hlaid (.inl trivial) hopened).mono hlast

end Patchbay.Program
