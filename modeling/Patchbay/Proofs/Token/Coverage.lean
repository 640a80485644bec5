import Mathlib.Data.List.Permutation
import Patchbay.Proofs.Token.Literal

/-! What becomes of every character of a text: it belongs to one token, or it is white space, stands
in a comment, or starts no token. -/
namespace Patchbay

/-- The character at an offset is one of the span's. -/
def Span.Has (s : Span) (k : Nat) : Prop := s.start ≤ k ∧ k < s.stop

/-- The characters of a text at a span. -/
def Span.of (s : Span) (text : List Char) : List Char :=
  (text.drop s.start).take (s.stop - s.start)

namespace Token
open Decimal
variable {text cs : List Char} {j k start : Nat}

/-- A comment starts at `j` and goes on up to `k`. -/
def CommentFrom (text : List Char) (j k : Nat) : Prop :=
  j ≤ k ∧ ['/', '/'] <+: text.drop j ∧ '\n' ∉ (text.drop j).take (k + 1 - j)

/-- Comments run from two slashes to the end of their line. -/
def InComment (text : List Char) (k : Nat) : Prop := ∃ j, CommentFrom text j k

/-- Neither an operator nor a number, a word or a mark is at the front of the text. -/
def StartsNothing (cs : List Char) : Prop :=
  (∀ o : Operator, ¬ o.text.toList <+: cs) ∧
    ∀ c, cs.head? = some c → isDigit c = false ∧ isNameStart c = false ∧ ∀ m : Mark, m.char ≠ c

/-- Why a character is passed over. -/
inductive Skipped (text : List Char) (k : Nat) : Prop where
  | blank (c : Char) (hc : text[k]? = some c) (h : Text.isBlank c = true)
  | comment (h : InComment text k)
  | stray (h : ¬ InComment text k) (hs : StartsNothing (text.drop k))

theorem startsComment_iff : startsComment cs = true ↔ ['/', '/'] <+: cs := by
  rw [startsComment.eq_def]
  split
  · exact ⟨fun _ => ⟨_, rfl⟩, fun _ => rfl⟩
  · next h =>
    refine ⟨fun hf => absurd hf Bool.false_ne_true, ?_⟩
    rintro ⟨rest, rfl⟩
    exact absurd rfl (h rest)

theorem prefix_of_operator? {o : Operator} (h : operator? cs = some o) : o.text.toList <+: cs := by
  rw [operator?.eq_def] at h
  split at h <;> cases h <;> exact ⟨_, rfl⟩

theorem not_prefix_of_operator? (h : operator? cs = none) (o : Operator) :
    ¬ o.text.toList <+: cs := by
  rintro ⟨rest, rfl⟩
  rw [operator?.eq_def] at h
  split at h
  all_goals try cases h
  all_goals cases o <;> simp_all [Operator.text]

theorem startsNothing_of_lexeme? (h : lexeme? cs = none) : StartsNothing cs := by
  cases cs with
  | nil =>
    refine ⟨fun o ho => ?_, fun c hc => by cases hc⟩
    cases o <;> cases List.prefix_nil.mp ho
  | cons c rest =>
    simp only [lexeme?] at h
    split at h
    · cases h
    · next hdigit =>
      split at h
      · cases h
      · next hoperator =>
        split at h
        · cases h
        · next hname =>
          refine ⟨not_prefix_of_operator? hoperator, fun d hd => ?_⟩
          cases hd
          refine ⟨Bool.eq_false_iff.mpr hdigit, Bool.eq_false_iff.mpr hname, fun m hm => ?_⟩
          subst hm
          cases m <;> cases h

/-- A letter or underscore, then letters, digits and underscores. -/
def IsWord (cs : List Char) : Prop :=
  ∃ c rest, cs = c :: rest ∧ isNameStart c = true ∧ ∀ d ∈ rest, isNameChar d = true

/-- How a token is written: as messages show it, or as a literal whose number it has. -/
inductive Spells : Kind → List Char → Prop where
  | keyword (k : Keyword) : Spells (.keyword k) (Kind.describe (.keyword k)).toList
  | operator (o : Operator) : Spells (.operator o) (Kind.describe (.operator o)).toList
  | mark (m : Mark) : Spells (.mark m) (Kind.describe (.mark m)).toList
  | name (text : String) (h : IsWord text.toList) (hk : ∀ k : Keyword, k.text ≠ text) :
    Spells (.name text) (Kind.describe (.name text)).toList
  | number {l : Literal} {value : Float} (h : l.Proper) (hv : Decimal.value? l.plain = some value) :
    Spells (.number value (String.ofList l.unit)) l.text

theorem spells_word (word : String) (h : IsWord word.toList) :
    Spells (wordKind word) word.toList := by
  rw [wordKind]
  split
  · next k hk =>
    obtain rfl : k.text = word := by
      rw [Keyword.ofWord?.eq_def] at hk
      split at hk <;> cases hk <;> rfl
    exact .keyword k
  · next hk =>
    refine .name word h fun k hword => ?_
    subst hword
    cases k <;> cases hk

theorem spells_of_lexeme? {l : Lexeme} (h : lexeme? cs = some l) : Spells l.kind l.text := by
  cases cs with
  | nil => cases h
  | cons c rest =>
    simp only [lexeme?] at h
    split at h
    · next hd =>
      cases h
      have hproper := scanLiteral_proper hd rest
      exact .number hproper hproper.value?_plain
    · split at h
      · next o _ =>
        cases h
        exact .operator o
      · split at h
        · next hn =>
          cases h
          have hword : IsWord ((c :: rest).takeWhile isNameChar) := by
            have hc : isNameChar c = true := by
              rw [isNameStart, Bool.or_eq_true] at hn
              simp only [isNameChar, Bool.or_eq_true]
              exact hn.elim (fun h => .inl (.inl h)) .inr
            rw [List.takeWhile_cons_of_pos hc]
            exact ⟨c, _, rfl, hn, fun d hd => List.all_eq_true.mp List.all_takeWhile d hd⟩
          generalize (c :: rest).takeWhile isNameChar = word at hword
          have hspells := spells_word (String.ofList word)
          rw [String.toList_ofList] at hspells
          exact hspells hword
        · obtain ⟨m, hm, rfl⟩ := Option.map_eq_some_iff.mp h
          obtain rfl : m.char = c := by
            rw [Mark.ofChar?.eq_def] at hm
            split at hm <;> cases hm <;> rfl
          have hspells := Spells.mark m
          rw [Kind.describe, String.toList_singleton] at hspells
          exact hspells

theorem prefix_of_lexeme? {l : Lexeme} (h : lexeme? cs = some l) : l.text <+: cs := by
  cases cs with
  | nil => cases h
  | cons c rest =>
    simp only [lexeme?] at h
    split at h
    · cases h
      exact scanLiteral_prefix _
    · split at h
      · next o ho =>
        cases h
        exact prefix_of_operator? ho
      · split at h
        · cases h
          exact List.takeWhile_prefix _
        · obtain ⟨m, -, rfl⟩ := Option.map_eq_some_iff.mp h
          exact List.cons_prefix_cons.mpr ⟨rfl, List.nil_prefix⟩

/-- A token at the front of the text is the first one. -/
theorem scanFrom_of_lexeme? (start : Nat) {c : Char} {rest : List Char} {l : Lexeme}
    (hblank : Text.isBlank c = false) (hcomment : startsComment (c :: rest) = false)
    (hl : lexeme? (c :: rest) = some l) :
    scanFrom start (c :: rest) = ⟨l.kind, start, start + l.text.length⟩ ::
      scanFrom (start + l.text.length) ((c :: rest).drop l.text.length) := by
  rw [scanFrom, hblank, hcomment, if_neg Bool.false_ne_true, if_neg Bool.false_ne_true]
  split
  · next hnone => cases hnone.symm.trans hl
  · next found hfound =>
    obtain rfl := Option.some.inj (hfound.symm.trans hl)
    rfl

theorem Literal.Proper.slash_not_mem {l : Literal} (h : l.Proper) : '/' ∉ l.text := by
  have places : ∀ {cs : List Char}, (∀ c ∈ cs, isPlace c = true) → '/' ∉ cs :=
    fun h hm => absurd (h _ hm) (by decide)
  have digit : ∀ {d : Char}, isDigit d = true → '/' ≠ d := by
    rintro d hd rfl
    cases hd
  have hwhole : '/' ∉ l.whole := by
    obtain ⟨d, ds, hwhole, hd, hds⟩ := h.whole
    rw [hwhole, List.mem_cons, not_or]
    exact ⟨digit hd, places hds⟩
  have hfraction : '/' ∉ l.fraction := by
    obtain hnone | ⟨ds, hpoint, hds⟩ := h.fraction
    · exact hnone ▸ List.not_mem_nil
    · rw [hpoint, List.mem_cons, not_or]
      exact ⟨by decide, places hds⟩
  have hpower : '/' ∉ l.power := by
    obtain hnone | ⟨e, sign, d, ds, hpower, he, hs, hd, hds⟩ := h.power
    · exact hnone ▸ List.not_mem_nil
    · have hfront : '/' ∉ e :: sign := by
        obtain rfl | rfl := he <;> obtain rfl | rfl | rfl := hs <;> decide
      rw [hpower, ← List.cons_append, List.mem_append, not_or]
      refine ⟨hfront, ?_⟩
      rw [List.mem_cons, not_or]
      exact ⟨digit hd, places hds⟩
  have hunit : '/' ∉ l.unit := fun hm => absurd (h.unit _ hm) (by decide)
  simp only [Literal.text, List.mem_append, not_or]
  exact ⟨⟨⟨hwhole, hfraction⟩, hpower⟩, hunit⟩

/-- No token has a slash. -/
theorem Spells.slash_not_mem {kind : Kind} {cs : List Char} (h : Spells kind cs) : '/' ∉ cs := by
  cases h with
  | keyword k => cases k <;> decide
  | operator o => cases o <;> decide
  | mark m => cases m <;> decide
  | name text h hk =>
    obtain ⟨c, rest, hcs, hc, hrest⟩ := h
    rw [Kind.describe, hcs, List.mem_cons, not_or]
    refine ⟨?_, fun hm => absurd (hrest _ hm) (by decide)⟩
    rintro rfl
    cases hc
  | number h hv => exact h.slash_not_mem

/-- The tokens of a text from `start` on, and what is outside of them. -/
structure Accounts (text : List Char) (start : Nat) (ts : List Token) : Prop where
  within : ∀ t ∈ ts, start ≤ t.span.start ∧ t.span.start < t.span.stop ∧ t.span.stop ≤ text.length
  spelled : ∀ t ∈ ts, Spells t.kind (t.span.of text)
  apart : ts.Pairwise fun a b => a.span.stop ≤ b.span.start
  outside : ∀ t ∈ ts, ∀ k, t.span.Has k → ¬ InComment text k
  rest : ∀ k, start ≤ k → k < text.length → (∀ t ∈ ts, ¬ t.span.Has k) → Skipped text k

/-- Passing over characters. -/
theorem Accounts.skip {ts : List Token} {next : Nat} (h : Accounts text next ts)
    (hle : start ≤ next) (hs : ∀ k, start ≤ k → k < next → k < text.length → Skipped text k) :
    Accounts text start ts := by
  refine ⟨fun t ht => ⟨Nat.le_trans hle (h.within t ht).1, (h.within t ht).2⟩, h.spelled, h.apart,
    h.outside, fun k hk hlt hnone => ?_⟩
  by_cases hnext : k < next
  · exact hs k hk hnext hlt
  · exact h.rest k (Nat.le_of_not_lt hnext) hlt hnone

theorem Accounts.token {ts : List Token} {kind : Kind} {next : Nat} (h : Accounts text next ts)
    (hlt : start < next) (hle : next ≤ text.length)
    (hs : Spells kind (Span.of ⟨start, next⟩ text))
    (ho : ∀ k, start ≤ k → k < next → ¬ InComment text k) :
    Accounts text start (⟨kind, start, next⟩ :: ts) := by
  refine ⟨List.forall_mem_cons.mpr ⟨⟨Nat.le_refl _, hlt, hle⟩, fun t ht => ?_⟩,
    List.forall_mem_cons.mpr ⟨hs, h.spelled⟩,
    List.pairwise_cons.mpr ⟨fun t ht => (h.within t ht).1, h.apart⟩,
    List.forall_mem_cons.mpr ⟨fun k hk => ho k hk.1 hk.2, h.outside⟩, fun k hk hlt' hnone => ?_⟩
  · exact ⟨Nat.le_trans (Nat.le_of_lt hlt) (h.within t ht).1, (h.within t ht).2⟩
  · obtain ⟨hfirst, hnone⟩ := List.forall_mem_cons.mp hnone
    exact h.rest k (Nat.le_of_not_lt fun hkn => hfirst ⟨hk, hkn⟩) hlt' hnone

/-- No comment from in front of the offset goes on there. -/
def Clear (text : List Char) (start : Nat) : Prop :=
  start < text.length → ∀ j < start, ¬ CommentFrom text j start

theorem CommentFrom.mono {k' : Nat} (h : CommentFrom text j k') (hj : j ≤ k) (hk : k ≤ k') :
    CommentFrom text j k := by
  obtain ⟨-, hslashes, hline⟩ := h
  exact ⟨hj, hslashes, fun hm => hline (List.take_subset_take_left _ (by omega) hm)⟩

/-- Where no comment starts, the text stays clear. -/
theorem Clear.advance {next : Nat} (h : Clear text start) (hle : start ≤ next)
    (hs : ∀ j, start ≤ j → j < next → ¬ ['/', '/'] <+: text.drop j) : Clear text next := by
  intro hlt j hj hc
  by_cases hstart : j < start
  · exact h (by omega) j hstart (hc.mono (by omega) hle)
  · exact hs j (by omega) hj hc.2.1

/-- What is read where the text is clear is in no comment. -/
theorem Clear.not_inComment (h : Clear text start) (hk : start ≤ k) (hlt : k < text.length)
    (hs : ∀ j, start ≤ j → j ≤ k → ¬ ['/', '/'] <+: text.drop j) : ¬ InComment text k := by
  rintro ⟨j, hc⟩
  by_cases hstart : j < start
  · exact h (by omega) j hstart (hc.mono (by omega) hk)
  · exact hs j (by omega) hc.1 hc.2.1

private theorem drop_succ {c : Char} {rest : List Char} (h : text.drop start = c :: rest) :
    text.drop (start + 1) = rest := by
  rw [← List.drop_drop, h, List.drop_one, List.tail_cons]

/-- A single character that starts no comment is passed over. -/
private theorem accounts_succ {c : Char} {rest : List Char} {ts : List Token}
    (hcs : text.drop start = c :: rest) (h : Clear text start)
    (hcomment : ¬ startsComment (c :: rest) = true) (hs : Skipped text start)
    (ih : text.drop (start + 1) = rest → Clear text (start + 1) → Accounts text (start + 1) ts) :
    Accounts text start ts := by
  have hclear : Clear text (start + 1) := by
    refine h.advance (Nat.le_succ start) fun j hj hlt hslashes => ?_
    obtain rfl : j = start := by omega
    exact hcomment (startsComment_iff.mpr (hcs ▸ hslashes))
  refine (ih (drop_succ hcs) hclear).skip (Nat.le_succ start) fun k hk hlt _ => ?_
  obtain rfl : k = start := by omega
  exact hs

/-- A token is taken up whole. -/
private theorem accounts_token {l : Lexeme} {ts : List Token} (hcs : text.drop start = cs)
    (h : Clear text start) (hl : lexeme? cs = some l)
    (ih : text.drop (start + l.text.length) = cs.drop l.text.length →
      Clear text (start + l.text.length) → Accounts text (start + l.text.length) ts) :
    Accounts text start (⟨l.kind, start, start + l.text.length⟩ :: ts) := by
  have hspells := spells_of_lexeme? hl
  have hprefix := prefix_of_lexeme? hl
  have hpos := List.length_pos_iff.mpr (text_ne_nil_of_lexeme? hl)
  have hle : start + l.text.length ≤ text.length := by
    have := hprefix.length_le
    rw [← hcs, List.length_drop] at this
    omega
  have hslash : ∀ j, start ≤ j → j < start + l.text.length → ¬ ['/', '/'] <+: text.drop j := by
    intro j hj hlt hslashes
    refine hspells.slash_not_mem ?_
    have hhead : (text.drop j)[0]? = some '/' := by
      obtain ⟨tail, htail⟩ := hslashes
      rw [← htail]
      rfl
    rw [List.getElem?_drop, Nat.add_zero, ← Nat.add_sub_of_le hj, ← List.getElem?_drop, hcs] at hhead
    rw [List.prefix_iff_eq_take.mp hprefix]
    refine List.mem_of_getElem? (i := j - start) ?_
    rw [List.getElem?_take_of_lt (by omega), hhead]
  have htext : Span.of ⟨start, start + l.text.length⟩ text = l.text := by
    rw [Span.of, hcs, Nat.add_sub_cancel_left]
    exact (List.prefix_iff_eq_take.mp hprefix).symm
  have hnext := ih (by rw [← List.drop_drop, hcs]) (h.advance (Nat.le_add_right _ _) hslash)
  refine hnext.token (Nat.lt_add_of_pos_right hpos) hle (by rwa [htext]) fun k hk hlt => ?_
  exact h.not_inComment hk (by omega) fun j hj hjk => hslash j hj (by omega)

/-- A text up to the end of its line, and what follows there. -/
private theorem exists_line (cs : List Char) : ∃ tail, cs = cs.takeWhile (· ≠ '\n') ++ tail ∧
    '\n' ∉ cs.takeWhile (· ≠ '\n') ∧ ∀ c, tail.head? = some c → c = '\n' := by
  refine ⟨cs.dropWhile (· ≠ '\n'), List.takeWhile_append_dropWhile.symm, fun hm => ?_,
    fun c hc => ?_⟩
  · have := List.all_eq_true.mp List.all_takeWhile _ hm
    simp at this
  · have := List.head?_dropWhile_not (· ≠ '\n') cs
    rw [hc] at this
    simpa using this

/-- A comment is passed over up to the end of its line. -/
private theorem accounts_comment {c : Char} {rest comment : List Char} {ts : List Token}
    (hcs : text.drop start = c :: rest) (hcomment : startsComment (c :: rest) = true)
    (hline : comment = rest.takeWhile (· ≠ '\n'))
    (ih : text.drop (start + 1 + comment.length) = rest.drop comment.length →
      Clear text (start + 1 + comment.length) → Accounts text (start + 1 + comment.length) ts) :
    Accounts text start ts := by
  obtain ⟨tail, hrest, hnone, hend⟩ := exists_line rest
  rw [← hline] at hrest hnone
  have hslashes : ['/', '/'] <+: c :: rest := startsComment_iff.mp hcomment
  have hdrop : text.drop (start + 1 + comment.length) = tail := by
    rw [← List.drop_drop, drop_succ hcs, hrest, List.drop_left]
  have hclear : Clear text (start + 1 + comment.length) := by
    intro hlt j hj hc
    refine hc.2.2 (List.mem_of_getElem? (i := start + 1 + comment.length - j) ?_)
    rw [List.getElem?_take_of_lt (by omega), List.getElem?_drop, Nat.add_sub_of_le (by omega),
      ← List.head?_drop, hdrop]
    rw [List.drop_eq_getElem_cons hlt] at hdrop
    have hnewline := hend text[start + 1 + comment.length] (by rw [← hdrop]; rfl)
    rw [← hdrop, List.head?_cons, hnewline]
  refine (ih (by rw [hdrop, hrest, List.drop_left]) hclear).skip (by omega)
    fun k hk hlt _ => .comment ⟨start, hk, hcs ▸ hslashes, ?_⟩
  rw [hcs, hrest, ← List.cons_append, List.take_append_of_le_length (by simp; omega)]
  intro hm
  obtain rfl | hm := List.mem_cons.mp (List.mem_of_mem_take hm)
  · obtain ⟨more, hmore⟩ := hslashes
    cases hmore
  · exact hnone hm

theorem accounts_scanFrom (hcs : text.drop start = cs) (h : Clear text start) :
    Accounts text start (scanFrom start cs) := by
  -- As the scanner goes: the end, white space, a comment, nothing that starts a token, a token.
  fun_induction scanFrom start cs with
  | case1 start =>
    have hlength : text.length ≤ start := List.drop_eq_nil_iff.mp hcs
    refine ⟨?_, ?_, .nil, ?_, fun k hk hlt => by omega⟩ <;> exact fun t ht => by cases ht
  | case2 start c rest hblank ih =>
    have hc : text[start]? = some c := by
      rw [← List.head?_drop, hcs]
      rfl
    refine accounts_succ hcs h (fun hcomment => ?_) (.blank c hc hblank) ih
    obtain ⟨tail, htail⟩ := startsComment_iff.mp hcomment
    obtain ⟨rfl, -⟩ := List.cons.inj htail
    cases hblank
  | case3 start c rest hblank hcomment comment ih => exact accounts_comment hcs hcomment rfl ih
  | case4 start c rest hblank hcomment hl ih =>
    refine accounts_succ hcs h hcomment ?_ ih
    by_cases hin : InComment text start
    · exact .comment hin
    · exact .stray hin (hcs ▸ startsNothing_of_lexeme? hl)
  | case5 start c rest hblank hcomment l hl ih => exact accounts_token hcs h hl ih

/-- Every text, character by character. The tokens are apart and in order, each one covers
characters that spell it and that no comment contains, and a character outside of them is white
space, in a comment, or one at which no token starts. -/
theorem accounts_scan (source : String) :
    (∀ t ∈ scan source, t.span.start < t.span.stop ∧ t.span.stop ≤ source.toList.length ∧
      Spells t.kind (t.span.of source.toList) ∧
        ∀ k, t.span.Has k → ¬ InComment source.toList k) ∧
    ((scan source).Pairwise fun a b => a.span.stop ≤ b.span.start) ∧
    ∀ k, k < source.toList.length → (∀ t ∈ scan source, ¬ t.span.Has k) →
      Skipped source.toList k := by
  have hclear : Clear source.toList 0 := fun _ j hj => absurd hj (Nat.not_lt_zero j)
  have h : Accounts source.toList 0 (scan source) := accounts_scanFrom rfl hclear
  refine ⟨fun t ht => ?_, h.apart, fun k hk hnone => h.rest k (Nat.zero_le k) hk hnone⟩
  exact ⟨(h.within t ht).2.1, (h.within t ht).2.2, h.spelled t ht, h.outside t ht⟩

/-- A grouped literal with a unit, a comment and a character that starts nothing. -/
def remark : String := "1_0.5e2Hz // ~\n~ x"

theorem accounts_scan_remark : ∃ t ∈ scan remark, t.span = ⟨0, 9⟩ ∧
    Spells t.kind (t.span.of remark.toList) ∧ Skipped remark.toList 13 ∧
      Skipped remark.toList 15 := by
  obtain ⟨htokens, -, hrest⟩ := accounts_scan remark
  obtain ⟨kind, hscan⟩ : ∃ kind, scan remark = [⟨kind, ⟨0, 9⟩⟩, ⟨.name "x", ⟨17, 18⟩⟩] := by
    have hl : lexeme? remark.toList = some ⟨.number (scanLiteral remark.toList).value "Hz",
        "1_0.5e2Hz".toList⟩ := rfl
    have hbehind : scanFrom 9 (remark.toList.drop 9) = [⟨.name "x", ⟨17, 18⟩⟩] := by cbv
    have := scanFrom_of_lexeme? 0 (by decide) (by decide) hl
    exact ⟨_, this.trans (congrArg _ hbehind)⟩
  rw [hscan] at htokens hrest ⊢
  have houtside : ∀ k, 9 ≤ k → k < 17 → Skipped remark.toList k := by
    intro k hle hlt
    refine hrest k (by simp [remark]; omega) fun t ht => ?_
    obtain rfl | rfl : t = ⟨kind, ⟨0, 9⟩⟩ ∨ t = ⟨.name "x", ⟨17, 18⟩⟩ := by simpa using ht
    · exact fun h => absurd h.2 (Nat.not_lt_of_le hle)
    · exact fun h => absurd h.1 (Nat.not_le_of_lt hlt)
  exact ⟨_, List.mem_cons_self, rfl, (htokens _ List.mem_cons_self).2.2.1,
    houtside 13 (by decide) (by decide), houtside 15 (by decide) (by decide)⟩

end Token
end Patchbay
