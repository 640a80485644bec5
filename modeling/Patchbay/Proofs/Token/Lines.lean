import Patchbay.Proofs.Token.Coverage

/-! Scanning line by line. A line break ends whatever stands in front of it, so the tokens of a text
are those of its lines, each at the place of its line. -/
namespace Patchbay

/-- The token so many characters further on. -/
def Token.shift (offset : Nat) (t : Token) : Token :=
  ⟨t.kind, ⟨t.span.start + offset, t.span.stop + offset⟩⟩

namespace Token
open Decimal
variable {cs rest : List Char}

theorem takeWhile_append_line {p : Char → Bool} (hp : p '\n' = false) (cs rest : List Char) :
    (cs ++ '\n' :: rest).takeWhile p = cs.takeWhile p := by
  induction cs with
  | nil => rw [List.nil_append, List.takeWhile_cons, hp]; rfl
  | cons c cs ih => rw [List.cons_append, List.takeWhile_cons, List.takeWhile_cons, ih]

private theorem drop_append_line {front : List Char} (h : front.length ≤ cs.length) :
    (cs ++ '\n' :: rest).drop front.length = cs.drop front.length ++ '\n' :: rest :=
  List.drop_append_of_le_length h

theorem scanFraction_append_line (cs rest : List Char) :
    scanFraction (cs ++ '\n' :: rest) = scanFraction cs := by
  cases cs with
  | nil => rfl
  | cons c cs =>
    by_cases hc : c = '.'
    · subst hc
      exact congrArg ('.' :: ·) (takeWhile_append_line rfl cs rest)
    · simp [scanFraction, hc]

/-- Neither the sign nor the digits of a power are looked for on the next line. -/
theorem scanPower_append_line (cs rest : List Char) :
    scanPower (cs ++ '\n' :: rest) = scanPower cs := by
  cases cs with
  | nil => rfl
  | cons e cs =>
    have hsign : ((cs ++ '\n' :: rest).take 1).filter (fun c => c = '+' || c = '-') =
        (cs.take 1).filter fun c => c = '+' || c = '-' := by
      cases cs with
      | nil => rfl
      | cons c cs => rfl
    have hlength : ((cs.take 1).filter fun c => c = '+' || c = '-').length ≤ cs.length :=
      (List.length_filter_le _ _).trans (List.length_take_le' _ _)
    simp only [List.cons_append, scanPower, hsign, drop_append_line hlength,
      takeWhile_append_line (p := isPlace) rfl]

theorem scanLiteral_append_line (cs rest : List Char) :
    scanLiteral (cs ++ '\n' :: rest) = scanLiteral cs := by
  have hwhole : (cs.takeWhile isPlace).length ≤ cs.length := (List.takeWhile_prefix _).length_le
  have hfraction cs := scanFraction_prefix cs |>.length_le
  have hpower cs := scanPower_prefix cs |>.length_le
  simp only [scanLiteral, takeWhile_append_line (p := isPlace) rfl, drop_append_line hwhole,
    scanFraction_append_line, drop_append_line (hfraction _), scanPower_append_line,
    drop_append_line (hpower _), takeWhile_append_line (p := isUnitChar) rfl]

/-- The second character of an arrow is on the same line as the first. -/
theorem operator?_append_line (h : cs ≠ []) (rest : List Char) :
    operator? (cs ++ '\n' :: rest) = operator? cs := by
  obtain ⟨c, more, rfl⟩ := List.exists_cons_of_ne_nil h
  cases more with
  | nil =>
    rw [operator?.eq_def, operator?.eq_def]
    split <;> simp_all
  | cons d more =>
    rw [operator?.eq_def, operator?.eq_def]
    split
    case h_6 tail hnot heq =>
      obtain ⟨rfl, rfl⟩ := List.cons.inj heq
      have hd : d ≠ '>' := by
        rintro rfl
        exact hnot _ rfl
      simp [hd]
    all_goals simp_all

/-- The token at the front of a line is told by the line. -/
theorem lexeme?_append_line (h : cs ≠ []) (rest : List Char) :
    lexeme? (cs ++ '\n' :: rest) = lexeme? cs := by
  have hliteral := scanLiteral_append_line cs rest
  have hoperator := operator?_append_line h rest
  have hword := takeWhile_append_line (p := isNameChar) rfl cs rest
  obtain ⟨c, more, rfl⟩ := List.exists_cons_of_ne_nil h
  rw [List.cons_append] at hliteral hoperator hword ⊢
  rw [lexeme?, lexeme?, hliteral, hoperator, hword]

theorem startsComment_append_line (h : cs ≠ []) (rest : List Char) :
    startsComment (cs ++ '\n' :: rest) = startsComment cs := by
  obtain ⟨c, more, rfl⟩ := List.exists_cons_of_ne_nil h
  cases more with
  | nil =>
    rw [startsComment.eq_def, startsComment.eq_def]
    split <;> simp_all
  | cons d more =>
    rw [startsComment.eq_def, startsComment.eq_def]
    split <;> simp_all

section Steps
variable {c : Char} (start : Nat)

theorem scanFrom_of_blank (hblank : Text.isBlank c = true) :
    scanFrom start (c :: rest) = scanFrom (start + 1) rest := by
  rw [scanFrom, if_pos hblank]

theorem scanFrom_of_comment (hblank : Text.isBlank c = false)
    (hcomment : startsComment (c :: rest) = true) :
    scanFrom start (c :: rest) = scanFrom (start + 1 + (rest.takeWhile (· ≠ '\n')).length)
      (rest.drop (rest.takeWhile (· ≠ '\n')).length) := by
  rw [scanFrom, hblank, hcomment, if_neg Bool.false_ne_true, if_pos rfl]

/-- A character that starts nothing is passed over. -/
theorem scanFrom_of_stray (hblank : Text.isBlank c = false)
    (hcomment : startsComment (c :: rest) = false) (hl : lexeme? (c :: rest) = none) :
    scanFrom start (c :: rest) = scanFrom (start + 1) rest := by
  rw [scanFrom, hblank, hcomment, if_neg Bool.false_ne_true, if_neg Bool.false_ne_true]
  split
  · rfl
  · next found hfound => cases hl.symm.trans hfound

end Steps

/-- Where a text stands plays no part in how it is scanned. -/
theorem scanFrom_add (start offset : Nat) (cs : List Char) :
    scanFrom (start + offset) cs = (scanFrom start cs).map (shift offset) := by
  fun_induction scanFrom start cs with
  | case1 start => rw [scanFrom, List.map_nil]
  | case2 start c rest hblank ih => rw [scanFrom_of_blank _ hblank, ← ih, Nat.add_right_comm]
  | case3 start c rest hblank hcomment comment ih =>
    have hnext : start + offset + 1 + comment.length = start + 1 + comment.length + offset := by omega
    rw [scanFrom_of_comment _ (Bool.eq_false_iff.mpr hblank) hcomment, ← ih, ← hnext]
  | case4 start c rest hblank hcomment hl ih =>
    rw [scanFrom_of_stray _ (Bool.eq_false_iff.mpr hblank) (Bool.eq_false_iff.mpr hcomment) hl, ← ih,
      Nat.add_right_comm]
  | case5 start c rest hblank hcomment l hl ih =>
    rw [scanFrom_of_lexeme? _ (Bool.eq_false_iff.mpr hblank) (Bool.eq_false_iff.mpr hcomment) hl,
      List.map_cons, ← ih, shift, Nat.add_right_comm]

/-- A line break ends what stands in front of it, and what stands behind it is scanned on its own. -/
theorem scanFrom_append_line (start : Nat) (cs rest : List Char) :
    scanFrom start (cs ++ '\n' :: rest) =
      scanFrom start cs ++ scanFrom (start + cs.length + 1) rest := by
  -- As the scanner goes through the text in front of the break.
  fun_induction scanFrom start cs with
  | case1 start =>
    have hblank : Text.isBlank '\n' = true := by decide
    rw [List.nil_append, scanFrom_of_blank _ hblank]
    rfl
  | case2 start c cs hblank ih =>
    rw [List.cons_append, scanFrom_of_blank _ hblank, ih, List.length_cons]
    congr 2
    omega
  | case3 start c cs hblank hcomment comment ih =>
    have hline : (cs ++ '\n' :: rest).takeWhile (· ≠ '\n') = comment :=
      takeWhile_append_line (by decide) cs rest
    have hlength : comment.length ≤ cs.length := (List.takeWhile_prefix _).length_le
    have hcomment' := (startsComment_append_line (List.cons_ne_nil c cs) rest).trans hcomment
    rw [List.cons_append] at hcomment' ⊢
    rw [scanFrom_of_comment _ (Bool.eq_false_iff.mpr hblank) hcomment', hline,
      drop_append_line hlength, ih, List.length_drop, List.length_cons]
    congr 2
    omega
  | case4 start c cs hblank hcomment hl ih =>
    have hcomment' := (startsComment_append_line (List.cons_ne_nil c cs) rest).trans
      (Bool.eq_false_iff.mpr hcomment)
    have hl' := (lexeme?_append_line (List.cons_ne_nil c cs) rest).trans hl
    rw [List.cons_append] at hcomment' hl' ⊢
    rw [scanFrom_of_stray _ (Bool.eq_false_iff.mpr hblank) hcomment' hl', ih, List.length_cons]
    congr 2
    omega
  | case5 start c cs hblank hcomment l hl ih =>
    have hcomment' := (startsComment_append_line (List.cons_ne_nil c cs) rest).trans
      (Bool.eq_false_iff.mpr hcomment)
    have hl' := (lexeme?_append_line (List.cons_ne_nil c cs) rest).trans hl
    have hlength : l.text.length ≤ (c :: cs).length := (prefix_of_lexeme? hl).length_le
    rw [List.cons_append] at hcomment' hl' ⊢
    rw [scanFrom_of_lexeme? _ (Bool.eq_false_iff.mpr hblank) hcomment' hl', ← List.cons_append,
      drop_append_line hlength, ih, List.cons_append, List.length_drop]
    congr 3
    omega

theorem scan_append_line (s t : String) :
    scan (s ++ "\n" ++ t) = scan s ++ (scan t).map (shift (s.length + 1)) := by
  have hbreak : "\n".toList = ['\n'] := rfl
  rw [scan, String.toList_append, String.toList_append, List.append_assoc, hbreak,
    List.singleton_append, scanFrom_append_line, scan, scan, ← scanFrom_add, String.length_toList,
    Nat.zero_add, Nat.zero_add]

/-- The tokens of lines, the first of which starts at the given offset. -/
def ofLines (start : Nat) : List String → List Token
  | [] => []
  | line :: rest => (scan line).map (shift start) ++ ofLines (start + line.length + 1) rest

theorem map_shift_zero (ts : List Token) : ts.map (shift 0) = ts := List.map_id' ts

theorem shift_shift (a b : Nat) (t : Token) : (t.shift a).shift b = t.shift (a + b) := by
  rw [shift, shift, shift, Nat.add_assoc, Nat.add_assoc]

theorem map_shift_ofLines (offset start : Nat) (lines : List String) :
    (ofLines start lines).map (shift offset) = ofLines (start + offset) lines := by
  induction lines generalizing start with
  | nil => rfl
  | cons line rest ih =>
    have hnext : start + line.length + 1 + offset = start + offset + line.length + 1 := by omega
    rw [ofLines, ofLines, List.map_append, ih, List.map_map, hnext]
    congr 2
    funext t
    exact shift_shift start offset t

/-- A text has the tokens of its lines. -/
theorem scan_intercalate (lines : List String) : scan ("\n".intercalate lines) = ofLines 0 lines := by
  induction lines with
  | nil =>
    rw [String.intercalate_nil, scan, String.toList_empty, scanFrom]
    rfl
  | cons line rest ih =>
    cases rest with
    | nil => rw [String.intercalate_singleton, ofLines, ofLines, map_shift_zero, List.append_nil]
    | cons next rest =>
      rw [String.intercalate_cons_cons, scan_append_line, ih, map_shift_ofLines,
        ofLines.eq_2 0 line, map_shift_zero, Nat.add_assoc]

/-- No token has a line break in it. -/
theorem newline_not_mem_span {source : String} {t : Token} (ht : t ∈ scan source) {k : Nat}
    (hk : t.span.Has k) : source.toList[k]? ≠ some '\n' := by
  intro hbreak
  obtain ⟨hlt, hget⟩ := List.getElem?_eq_some_iff.mp hbreak
  have hlength : (source.toList.take k).length = k := List.length_take_of_le (Nat.le_of_lt hlt)
  have hsplit : source.toList = source.toList.take k ++ '\n' :: source.toList.drop (k + 1) := by
    rw [← hget, ← List.drop_eq_getElem_cons hlt, List.take_append_drop]
  rw [scan, hsplit, scanFrom_append_line, hlength, Nat.zero_add, List.mem_append] at ht
  obtain hbefore | hbehind := ht
  · obtain ⟨htokens, -, -⟩ := accounts_scan (String.ofList (source.toList.take k))
    rw [scan, String.toList_ofList] at htokens
    obtain ⟨-, hstop, -⟩ := htokens t hbefore
    exact absurd hk.2 (Nat.not_lt_of_le (hlength ▸ hstop))
  · rw [← Nat.zero_add (k + 1), scanFrom_add] at hbehind
    obtain ⟨t', -, rfl⟩ := List.mem_map.mp hbehind
    exact absurd hk.1 (by simp only [shift]; omega)

/-- Scanning is local to lines, whatever the texts are. A line break between two texts divides their
tokens, a text of any number of lines has the tokens of each line at its place, and no token takes in
a line break. -/
theorem scan_lines :
    (∀ s t : String, scan (s ++ "\n" ++ t) = scan s ++ (scan t).map (shift (s.length + 1))) ∧
      (∀ lines : List String, scan ("\n".intercalate lines) = ofLines 0 lines) ∧
      ∀ (source : String), ∀ t ∈ scan source, ∀ k, t.span.Has k → source.toList[k]? ≠ some '\n' :=
  ⟨scan_append_line, scan_intercalate, fun _ _ ht _ => newline_not_mem_span ht⟩

/-- A comment, an arrow and a power are each cut by the end of their line. -/
example : (scan "x =\n> 2e\n5 // a\n/").map Token.kind =
    [.name "x", .operator .assign, .number 2 "e", .number 5 ""] := by decide +kernel

end Token
end Patchbay
