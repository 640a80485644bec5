import Mathlib.Algebra.GroupWithZero.Nat
import Patchbay.Proofs.Program.Faithful
import Patchbay.Proofs.Program.Parts

/-! Where the parts of a program come from: its literals are tokens of the text, its places are made
of theirs, and it has no more nodes than there are tokens. -/
namespace Patchbay

/-- What a program is made of: the literals in it, and the places, of which any two may be joined. -/
structure Material where
  literal : Float → String → Prop
  place : Span → Prop
  join : ∀ {a b : Span}, place a → place b → place (a.join b)

variable {m : Material}

mutual

/-- All literals and places of an expression are of the material. -/
def Expr.MadeOf (m : Material) : Expr → Prop
  | .error span => m.place span
  | .number value unit span => m.literal value unit ∧ m.place span
  | .unary _ operand span => operand.MadeOf m ∧ m.place span
  | .binary _ left right span => left.MadeOf m ∧ right.MadeOf m ∧ m.place span
  | .mapping _ source low high span =>
    source.MadeOf m ∧ low.MadeOf m ∧ high.MadeOf m ∧ m.place span
  | .construction c => c.MadeOf m
  | .socket _ _ span | .output _ _ span => m.place span
  | .name ident => m.place ident.span

def Construction.MadeOf (m : Material) : Construction Expr → Prop
  | ⟨_, _, args, span⟩ => Construction.ArgsMadeOf m args ∧ m.place span

def Construction.ArgsMadeOf (m : Material) : List (Arg Expr) → Prop
  | [] => True
  | ⟨_, value⟩ :: rest => value.MadeOf m ∧ Construction.ArgsMadeOf m rest

end

def Program.exprs (p : Program) : List Expr := p.lines.flatMap fun line => line.statement.exprs

theorem Expr.MadeOf.span {e : Expr} (h : e.MadeOf m) : m.place e.span := by
  cases e with
  | construction c =>
    obtain ⟨_, _, _, _⟩ := c
    exact h.2
  | number value unit span => exact h.2
  | unary sign operand span => exact h.2
  | binary op left right span => exact h.2.2
  | mapping polarity source low high span => exact h.2.2.2
  | _ => exact h

theorem Construction.ArgsMadeOf.value {args : List (Arg Expr)}
    (h : Construction.ArgsMadeOf m args) {arg : Arg Expr} (harg : arg ∈ args) :
    arg.value.MadeOf m := by
  induction args with
  | nil => exact absurd harg List.not_mem_nil
  | cons first rest ih =>
    rcases List.mem_cons.mp harg with rfl | harg
    · exact h.1
    · exact ih h.2 harg

/-- The parts are of the material as well. -/
theorem Expr.MadeOf.part {e part : Expr} (h : e.MadeOf m) (hpart : part ∈ e.parts) :
    part.MadeOf m := by
  cases e with
  | unary sign operand span => exact List.mem_singleton.mp hpart ▸ h.1
  | binary op left right span =>
    rcases List.mem_pair.mp hpart with rfl | rfl
    · exact h.1
    · exact h.2.1
  | mapping polarity source low high span =>
    rcases List.mem_cons.mp hpart with rfl | hpart
    · exact h.1
    · rcases List.mem_pair.mp hpart with rfl | rfl
      · exact h.2.1
      · exact h.2.2.1
  | construction c =>
    obtain ⟨className, name, args, span⟩ := c
    obtain ⟨arg, harg, rfl⟩ := List.mem_map.mp hpart
    exact h.1.value harg
  | _ => exact absurd hpart List.not_mem_nil

theorem Expr.MadeOf.withSpan {e : Expr} (h : e.MadeOf m) {span : Span} (hspan : m.place span) :
    (e.withSpan span).MadeOf m := by
  cases e with
  | construction c =>
    obtain ⟨_, _, _, _⟩ := c
    exact ⟨h.1, hspan⟩
  | number value unit span => exact ⟨h.1, hspan⟩
  | unary sign operand span => exact ⟨h.1, hspan⟩
  | binary op left right span => exact ⟨h.1, h.2.1, hspan⟩
  | mapping polarity source low high span => exact ⟨h.1, h.2.1, h.2.2.1, hspan⟩
  | _ => exact hspan

@[simp] theorem Expr.size_withSpan (e : Expr) (span : Span) : (e.withSpan span).size = e.size := by
  cases e with
  | construction c =>
    obtain ⟨_, _, _, _⟩ := c
    rfl
  | _ => rfl

namespace Grammar
open Token (Kind)

/-- Places and literals of the tokens are of the material. -/
def Covers (m : Material) (ts : List Token) : Prop :=
  ∀ t ∈ ts, m.place t.span ∧ ∀ value unit, t.kind = .number value unit → m.literal value unit

theorem covers_cons {t : Token} {ts : List Token} : Covers m (t :: ts) ↔
    (m.place t.span ∧ ∀ value unit, t.kind = .number value unit → m.literal value unit) ∧
      Covers m ts := List.forall_mem_cons

theorem covers_append {ts us : List Token} : Covers m (ts ++ us) ↔ Covers m ts ∧ Covers m us :=
  List.forall_mem_append

/-- What is read off tokens is made of them, and they are at least as many as its nodes. -/
structure Drawn (m : Material) (ts : List Token) (made : Prop) (size : Nat) : Prop where
  made : Covers m ts → made
  size : size ≤ ts.length

mutual

theorem drawn_atom {ts : List Token} {e : Expr} (h : Atom ts e) : Drawn m ts (e.MadeOf m) e.size := by
  cases h with
  | number value unit span =>
    refine ⟨fun hts => ?_, Nat.le_refl 1⟩
    obtain ⟨⟨hplace, hliteral⟩, _⟩ := covers_cons.mp hts
    exact ⟨hliteral value unit rfl, hplace⟩
  | name name span => exact ⟨fun hts => (covers_cons.mp hts).1.1, Nat.le_refl 1⟩
  | socket object span dot socket socketSpan =>
    refine ⟨fun hts => ?_, by simp [Expr.size]⟩
    simp only [covers_cons] at hts
    exact m.join hts.1.1 hts.2.2.1.1
  | output object span colon output outputSpan =>
    refine ⟨fun hts => ?_, by simp [Expr.size]⟩
    simp only [covers_cons] at hts
    exact m.join hts.1.1 hts.2.2.1.1
  | parens left right h =>
    obtain ⟨hmade, hsize⟩ := drawn_sum h
    refine ⟨fun hts => ?_, by simp; omega⟩
    simp only [List.cons_append, covers_cons, covers_append] at hts
    exact (hmade hts.2.1).withSpan (m.join hts.1.1 hts.2.2.1.1)
  | anonymous span className classSpan h =>
    obtain ⟨hmade, hsize⟩ := drawn_args h
    refine ⟨fun hts => ?_, by simp [Expr.size, Construction.size]; omega⟩
    simp only [covers_cons] at hts
    exact ⟨(hmade hts.2.2).1, m.join hts.1.1 (hmade hts.2.2).2⟩
  | named className span name nameSpan h =>
    obtain ⟨hmade, hsize⟩ := drawn_args h
    refine ⟨fun hts => ?_, by simp [Expr.size, Construction.size]; omega⟩
    simp only [covers_cons] at hts
    exact ⟨(hmade hts.2.2).1, m.join hts.1.1 (hmade hts.2.2).2⟩
termination_by 8 * ts.length

theorem drawn_mapped {ts : List Token} {e : Expr} (h : Mapped ts e) : Drawn m ts (e.MadeOf m) e.size := by
  cases h with
  | atom h => exact drawn_atom h
  | mapping comma close h hr ho hl hh =>
    obtain ⟨hsource, hsourceSize⟩ := drawn_mapped h
    obtain ⟨hlow, hlowSize⟩ := drawn_sum hl
    obtain ⟨hhigh, hhighSize⟩ := drawn_sum hh
    refine ⟨fun hts => ?_, by simp [Expr.size]; omega⟩
    simp only [covers_append, covers_cons] at hts
    have hs := hsource hts.1.1.1.1
    exact ⟨hs, hlow hts.1.1.2, hhigh hts.1.2.2, m.join hs.span hts.2.1.1⟩
termination_by 8 * ts.length + 1

theorem drawn_factor {ts : List Token} {e : Expr} (h : Factor ts e) : Drawn m ts (e.MadeOf m) e.size := by
  cases h with
  | mapped h => exact drawn_mapped h
  | signed sign span h hr =>
    obtain ⟨hmade, hsize⟩ := drawn_factor h
    refine ⟨fun hts => ?_, by simp [Expr.size]; omega⟩
    have ho := hmade (covers_cons.mp hts).2
    exact ⟨ho, m.join (covers_cons.mp hts).1.1 ho.span⟩
termination_by 8 * ts.length + 2

theorem drawn_product {ts : List Token} {e : Expr} (h : Product ts e) : Drawn m ts (e.MadeOf m) e.size := by
  cases h with
  | factor h => exact drawn_factor h
  | times star hl hr =>
    obtain ⟨hleft, hleftSize⟩ := drawn_product hl
    obtain ⟨hright, hrightSize⟩ := drawn_factor hr
    refine ⟨fun hts => ?_, by simp [Expr.size]; omega⟩
    simp only [covers_append, covers_cons] at hts
    have hl := hleft hts.1
    have hr := hright hts.2.2
    exact ⟨hl, hr, m.join hl.span hr.span⟩
termination_by 8 * ts.length + 3

theorem drawn_sum {ts : List Token} {e : Expr} (h : Sum ts e) : Drawn m ts (e.MadeOf m) e.size := by
  cases h with
  | product h => exact drawn_product h
  | plus span ho hl hr =>
    obtain ⟨hleft, hleftSize⟩ := drawn_sum hl
    obtain ⟨hright, hrightSize⟩ := drawn_product hr
    refine ⟨fun hts => ?_, by simp [Expr.size]; omega⟩
    simp only [covers_append, covers_cons] at hts
    have hl := hleft hts.1
    have hr := hright hts.2.2
    exact ⟨hl, hr, m.join hl.span hr.span⟩
termination_by 8 * ts.length + 4

theorem drawn_args {ts : List Token} {args : List (Arg Expr)} {close : Span}
    (h : Args ts args close) :
    Drawn m ts (Construction.ArgsMadeOf m args ∧ m.place close) (Construction.argsSize args) := by
  cases h with
  | none left close =>
    refine ⟨fun hts => ⟨trivial, ?_⟩, Nat.zero_le _⟩
    simp only [covers_cons] at hts
    exact hts.2.1.1
  | some left close h =>
    obtain ⟨hmade, hsize⟩ := drawn_argList h
    refine ⟨fun hts => ?_, by simp; omega⟩
    simp only [List.cons_append, covers_append, covers_cons] at hts
    exact ⟨hmade hts.2.1, hts.2.2.1.1⟩
termination_by 8 * ts.length + 7

theorem drawn_argList {ts : List Token} {args : List (Arg Expr)} (h : ArgList ts args) :
    Drawn m ts (Construction.ArgsMadeOf m args) (Construction.argsSize args) := by
  cases h with
  | one h =>
    obtain ⟨hmade, hsize⟩ := drawn_argument h
    exact ⟨fun hts => ⟨hmade hts, trivial⟩, by simpa [Construction.argsSize] using hsize⟩
  | more comma h hs =>
    obtain ⟨hmade, hsize⟩ := drawn_argument h
    obtain ⟨hrest, hrestSize⟩ := drawn_argList hs
    refine ⟨fun hts => ?_, by simp [Construction.argsSize]; omega⟩
    simp only [covers_append, covers_cons] at hts
    exact ⟨hmade hts.1, hrest hts.2.2⟩
termination_by 8 * ts.length + 6

theorem drawn_argument {ts : List Token} {arg : Arg Expr} (h : Argument ts arg) :
    Drawn m ts (arg.value.MadeOf m) arg.value.size := by
  cases h with
  | positional h hr => exact drawn_sum h
  | labelled dot socket span assign h hr =>
    obtain ⟨hmade, hsize⟩ := drawn_sum h
    refine ⟨fun hts => ?_, by simp; omega⟩
    simp only [covers_cons] at hts
    exact hmade hts.2.2.2
termination_by 8 * ts.length + 5
decreasing_by all_goals (subst_vars; simp only [List.length_cons] at *; omega)

end

variable {ts : List Token} {e : Expr}

/-- Expressions that are made of tokens. -/
abbrev DrawnAll (m : Material) (ts : List Token) (es : List Expr) : Prop :=
  Drawn m ts (∀ e ∈ es, e.MadeOf m) (es.map Expr.size).sum

theorem DrawnAll.append {us : List Token} {es es' : List Expr} (h : DrawnAll m ts es)
    (h' : DrawnAll m us es') : DrawnAll m (ts ++ us) (es ++ es') := by
  refine ⟨fun hts => ?_, ?_⟩
  · obtain ⟨hts, hus⟩ := covers_append.mp hts
    exact List.forall_mem_append.mpr ⟨h.made hts, h'.made hus⟩
  · rw [List.map_append, List.sum_append, List.length_append]
    exact Nat.add_le_add h.size h'.size

theorem DrawnAll.perm {es es' : List Expr} (h : DrawnAll m ts es) (hp : es.Perm es') :
    DrawnAll m ts es' :=
  ⟨fun hts e he => h.made hts e (hp.mem_iff.mpr he), (hp.map _).sum_nat ▸ h.size⟩

/-- A token more. -/
theorem DrawnAll.cons {es : List Expr} (h : DrawnAll m ts es) (t : Token) :
    DrawnAll m (t :: ts) es :=
  ⟨fun hts => h.made (covers_cons.mp hts).2, Nat.le_succ_of_le h.size⟩

theorem Sum.drawnAll (h : Sum ts e) : DrawnAll m ts [e] := by
  obtain ⟨hmade, hsize⟩ := drawn_sum (m := m) h
  exact ⟨fun hts => List.forall_mem_singleton.mpr (hmade hts), by simpa using hsize⟩

theorem Links.drawnAll {backward : Bool} {es : List Expr} (h : Links backward ts es) :
    DrawnAll m ts es := by
  induction h with
  | nil => exact ⟨fun _ => List.forall_mem_nil _, Nat.zero_le _⟩
  | cons span ha h hs ih => exact DrawnAll.append (h.drawnAll.cons _) ih

theorem Sentence.drawnAll {s : Statement} (h : Sentence ts s) : DrawnAll m ts s.exprs := by
  cases h with
  | definition name span assign h => exact (h.drawnAll.cons _).cons _
  | construction h => exact h.drawnAll
  | forward h hs hc =>
    have hall := h.drawnAll.append (hs.drawnAll (m := m))
    exact hall
  | @backward ts us vs source steps target second others arrow h h' hs hr hc =>
    have hall := (h.drawnAll.append (h'.drawnAll.cons ⟨.operator .backArrow, arrow⟩)).append
      (hs.drawnAll (m := m))
    refine hall.perm ?_
    have hothers : (second :: others).Perm (source :: steps) := hr ▸ List.reverse_perm _
    have hfront : ([target] ++ second :: others).Perm (second :: others ++ [target]) :=
      List.perm_append_comm
    exact hfront.trans (hothers.append_right [target])

theorem Lines.drawnAll {scope : Scope} {lines : List Line} (h : Lines scope ts lines) :
    DrawnAll m ts (Program.exprs ⟨lines⟩) := by
  induction h with
  | nil => exact ⟨fun _ => List.forall_mem_nil _, Nat.zero_le _⟩
  | cons h hs ih => exact h.drawnAll.append ih

/-- All literals and places of a program are made of the tokens it was read from. -/
theorem Text.drawnAll {p : Program} (h : Text ts p) : DrawnAll m ts p.exprs := by
  cases h with
  | global h => exact h.drawnAll
  | voice opened closed hb hi ha =>
    have hall := (hb.drawnAll.append (hi.drawnAll.cons ⟨.keyword .startVoice, opened⟩)).append
      (ha.drawnAll.cons (m := m) ⟨.keyword .endVoice, closed⟩)
    simpa [Program.exprs] using hall

end Grammar

namespace Token

theorem length_scanFraction_le (cs : List Char) : (scanFraction cs).length ≤ cs.length := by
  rw [scanFraction.eq_def]
  split
  · exact Nat.succ_le_succ (List.takeWhile_prefix _).length_le
  · exact Nat.zero_le _

theorem length_scanPower_le (cs : List Char) : (scanPower cs).length ≤ cs.length := by
  cases cs with
  | nil => exact Nat.le_refl 0
  | cons e rest =>
    simp only [scanPower]
    generalize hsign : List.filter (fun c => c = '+' || c = '-') (rest.take 1) = sign
    have hs : sign.length ≤ rest.length := hsign ▸
      (List.length_filter_le _ _).trans (List.length_take_le' _ _)
    have hd := (List.takeWhile_prefix isPlace (l := rest.drop sign.length)).length_le
    rw [List.length_drop] at hd
    split
    · simp only [List.cons_append, List.length_cons, List.length_append]
      omega
    · exact Nat.zero_le _

theorem length_scanLiteral_le (cs : List Char) : (scanLiteral cs).text.length ≤ cs.length := by
  have hw := (List.takeWhile_prefix isPlace (l := cs)).length_le
  simp only [scanLiteral, Literal.text, List.length_append]
  generalize (cs.takeWhile isPlace).length = whole at hw ⊢
  have hf := length_scanFraction_le (cs.drop whole)
  generalize (scanFraction (cs.drop whole)).length = fraction at hf ⊢
  have hp := length_scanPower_le ((cs.drop whole).drop fraction)
  generalize (scanPower ((cs.drop whole).drop fraction)).length = power at hp ⊢
  have hu := (List.takeWhile_prefix isUnitChar
    (l := ((cs.drop whole).drop fraction).drop power)).length_le
  simp only [List.length_drop] at hf hp hu
  omega

/-- A token takes up characters that are there. -/
theorem length_text_le_of_lexeme? {cs : List Char} {l : Lexeme} (h : lexeme? cs = some l) :
    l.text.length ≤ cs.length := by
  cases cs with
  | nil => cases h
  | cons c rest =>
    simp only [lexeme?] at h
    split at h
    · cases h
      exact length_scanLiteral_le (c :: rest)
    · split at h
      · next o ho =>
        cases h
        rw [operator?.eq_def] at ho
        split at ho
        all_goals cases ho
        all_goals simp_all [Operator.text]
      · split at h
        · cases h
          exact (List.takeWhile_prefix isNameChar).length_le
        · obtain ⟨mark, -, rfl⟩ := Option.map_eq_some_iff.mp h
          simp

/-- There are no more tokens than characters, and each ends within the text. -/
theorem scanFrom_within (start : Nat) (cs : List Char) :
    (scanFrom start cs).length ≤ cs.length ∧
      ∀ t ∈ scanFrom start cs, t.span.start ≤ start + cs.length ∧ t.span.stop ≤ start + cs.length := by
  -- What was told of the tokens behind the first `n` characters is so of them in the whole text.
  have behind : ∀ {start n : Nat} {cs : List Char} {ts : List Token}, n ≤ cs.length →
      (ts.length ≤ (cs.drop n).length ∧ ∀ t ∈ ts, t.span.start ≤ start + n + (cs.drop n).length ∧
        t.span.stop ≤ start + n + (cs.drop n).length) →
      ts.length + n ≤ cs.length ∧ ∀ t ∈ ts, t.span.start ≤ start + cs.length ∧
        t.span.stop ≤ start + cs.length := by
    intro start n cs ts hn h
    rw [List.length_drop] at h
    refine ⟨by omega, fun t ht => ?_⟩
    have := h.2 t ht
    omega
  fun_induction scanFrom start cs with
  | case1 start => simp
  | case2 start c rest hblank ih =>
    have hone : 1 ≤ (c :: rest).length := by simp
    obtain ⟨hlength, hspans⟩ := behind hone ih
    exact ⟨by omega, hspans⟩
  | case3 start c rest hblank hcomment comment ih =>
    have hle : comment.length + 1 ≤ (c :: rest).length :=
      Nat.succ_le_succ (List.takeWhile_prefix _).length_le
    have hstart : start + 1 + comment.length = start + (comment.length + 1) := by omega
    rw [hstart] at ih ⊢
    obtain ⟨hlength, hspans⟩ := behind hle ih
    exact ⟨by omega, hspans⟩
  | case4 start c rest hblank hcomment hl ih =>
    have hone : 1 ≤ (c :: rest).length := by simp
    obtain ⟨hlength, hspans⟩ := behind hone ih
    exact ⟨by omega, hspans⟩
  | case5 start c rest hblank hcomment l hl ih =>
    have hpos := List.length_pos_iff.mpr (text_ne_nil_of_lexeme? hl)
    have hle := length_text_le_of_lexeme? hl
    obtain ⟨hlength, hspans⟩ := behind hle ih
    refine ⟨by rw [List.length_cons]; omega, List.forall_mem_cons.mpr ⟨⟨?_, ?_⟩, hspans⟩⟩
    · exact Nat.le_add_right _ _
    · exact Nat.add_le_add_left hle _

end Token
end Patchbay
