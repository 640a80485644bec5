import Mathlib.Data.List.DropRight
import Mathlib.Data.Prod.Lex
import Patchbay.Diagnostic
import Patchbay.Proofs.Json.Numbers

/-! Lines and columns as places in a text. Offsets inside a text have places of their own, in the
same order, and a finding that is shown tells where it starts. -/
namespace Patchbay
open Decimal Json.Number
variable {source : String} {offset offset' : Nat}

/-- The characters behind the last line break. -/
def lastLine (cs : List Char) : List Char := cs.rtakeWhile (· ≠ '\n')

theorem lastLine_concat (cs : List Char) (c : Char) :
    lastLine (cs ++ [c]) = if c = '\n' then [] else lastLine cs ++ [c] := by
  rw [lastLine, List.rtakeWhile_concat]
  by_cases hc : c = '\n'
  · rw [if_pos hc, if_neg (by simp [hc])]
  · rw [if_neg hc, if_pos (by simp [hc]), lastLine]

/-- The line is told by the line breaks in front of the offset, and the column by the characters
behind the last of them. -/
theorem lineColumn_eq (source : String) (offset : Nat) :
    lineColumn source offset = (1 + (source.toList.take offset).count '\n',
      1 + (lastLine (source.toList.take offset)).length) := by
  rw [lineColumn]
  generalize source.toList.take offset = cs
  induction cs using List.reverseRecOn with
  | nil => rfl
  | append_singleton cs c ih =>
    rw [List.foldl_append, List.foldl_cons, List.foldl_nil, ih, List.count_append, lastLine_concat]
    by_cases hc : c = '\n'
    · subst hc
      rfl
    · simp [hc, Nat.add_assoc]

/-- Past the end all offsets are at the end. -/
theorem lineColumn_min (source : String) (offset : Nat) :
    lineColumn source (min offset source.length) = lineColumn source offset := by
  rw [lineColumn, lineColumn, ← String.length_toList, ← List.take_take, List.take_length]

/-- The next offset is on the same line one column on, or it starts the next line. -/
theorem lineColumn_succ (h : offset < source.length) :
    lineColumn source (offset + 1) =
        ((lineColumn source offset).1, (lineColumn source offset).2 + 1) ∨
      lineColumn source (offset + 1) = ((lineColumn source offset).1 + 1, 1) := by
  rw [← String.length_toList] at h
  rw [lineColumn, lineColumn, ← List.take_append_getElem h, List.foldl_append, List.foldl_cons,
    List.foldl_nil]
  split
  · exact .inr rfl
  · exact .inl rfl

theorem lineColumn_lt_succ (h : offset < source.length) :
    toLex (lineColumn source offset) < toLex (lineColumn source (offset + 1)) := by
  rw [Prod.Lex.toLex_lt_toLex]
  obtain hsame | hnext := lineColumn_succ h
  · rw [hsame]
    exact .inr ⟨rfl, Nat.lt_succ_self _⟩
  · rw [hnext]
    exact .inl (Nat.lt_succ_self _)

/-- A later offset has a later place. -/
theorem lineColumn_lt (hlt : offset < offset') (hle : offset' ≤ source.length) :
    toLex (lineColumn source offset) < toLex (lineColumn source offset') := by
  induction offset', hlt using Nat.le_induction with
  | base => exact lineColumn_lt_succ hle
  | succ next _ ih => exact (ih (Nat.le_of_succ_le hle)).trans (lineColumn_lt_succ hle)

/-- The offset at which a line starts. Lines are counted from zero here. -/
def lineStart : List Char → Nat → Nat
  | _, 0 => 0
  | [], _ + 1 => 0
  | c :: rest, line + 1 => (if c = '\n' then lineStart rest line else lineStart rest (line + 1)) + 1

/-- The offset of a line and a column. -/
def offsetAt (source : String) (place : Nat × Nat) : Nat :=
  lineStart source.toList (place.1 - 1) + (place.2 - 1)

private theorem lastLine_cons (c : Char) (cs : List Char) :
    lastLine (c :: cs) = if c = '\n' ∨ '\n' ∈ cs then lastLine cs else c :: cs := by
  induction cs using List.reverseRecOn with
  | nil => by_cases hc : c = '\n' <;> simp [lastLine, List.rtakeWhile, hc]
  | append_singleton cs d ih =>
    rw [← List.cons_append, lastLine_concat, lastLine_concat, ih]
    by_cases hd : d = '\n'
    · simp [hd]
    · have hd' : '\n' ≠ d := fun h => hd h.symm
      by_cases hc : c = '\n' ∨ '\n' ∈ cs <;> simp [hd, hd', hc]

/-- What stands in front of an offset are the lines before its own, and a part of its own. -/
theorem lineStart_add (before rest : List Char) :
    lineStart (before ++ rest) (before.count '\n') + (lastLine before).length = before.length := by
  induction before with
  | nil => rw [List.count_nil, lineStart.eq_def]; rfl
  | cons c before ih =>
    rw [List.cons_append, lastLine_cons]
    by_cases hc : c = '\n'
    · subst hc
      rw [List.count_cons_self, lineStart, if_pos rfl, if_pos (.inl rfl), List.length_cons]
      omega
    · rw [List.count_cons_of_ne hc]
      by_cases hm : '\n' ∈ before
      · obtain ⟨lines, hlines⟩ := Nat.exists_eq_add_one_of_ne_zero
          (Nat.ne_of_gt (List.count_pos_iff.mpr hm))
        rw [hlines, lineStart, if_neg hc, if_pos (.inr hm), List.length_cons, ← ih, hlines]
        omega
      · rw [List.count_eq_zero.mpr hm, lineStart, if_neg (by simp [hc, hm]), Nat.zero_add]

/-- The place tells the offset again. -/
theorem offsetAt_lineColumn (source : String) (offset : Nat) :
    offsetAt source (lineColumn source offset) = min offset source.length := by
  rw [offsetAt, lineColumn_eq]
  dsimp only
  rw [Nat.add_sub_cancel_left, Nat.add_sub_cancel_left, ← String.length_toList, ← List.length_take]
  have hstart := lineStart_add (source.toList.take offset) (source.toList.drop offset)
  rwa [List.take_append_drop] at hstart

/-- Numbers are cut off where no digit follows. -/
private theorem digitsOf_append_inj {n n' : Nat} {c c' : Char} {rest rest' : List Char}
    (hc : isDigit c = false) (hc' : isDigit c' = false)
    (h : digitsOf n ++ c :: rest = digitsOf n' ++ c' :: rest') :
    n = n' ∧ c :: rest = c' :: rest' := by
  have front : ∀ (n : Nat) (c : Char) (rest : List Char), isDigit c = false →
      (digitsOf n ++ c :: rest).takeWhile isDigit = digitsOf n := by
    intro n c rest hc
    exact takeWhile_digits (digits_digitsOf n).2 fun d hd => Option.some.inj hd ▸ hc
  have hdigits : digitsOf n = digitsOf n' := by
    rw [← front n c rest hc, h, front n' c' rest' hc']
  refine ⟨?_, List.append_cancel_left (hdigits ▸ h)⟩
  rw [← valueOf_digitsOf n, hdigits, valueOf_digitsOf]

namespace Diagnostic
variable {d d' : Diagnostic}

/-- A shown finding with a place, character by character. -/
private theorem toList_render {s : Span} (h : d.span = some s) (source : String) :
    (d.render source).toList = d.kind.label.toList ++ (" at line ".toList ++
      (digitsOf (lineColumn source s.start).1 ++ ',' :: (" col ".toList ++
        (digitsOf (lineColumn source s.start).2 ++ ':' :: (' ' :: d.message.toList))))) := by
  have hcolumn : ", col ".toList = ',' :: " col ".toList := by decide
  have hmessage : ": ".toList = [':', ' '] := by decide
  rw [render, lineColumn?, h, Option.map_some]
  simp only [Nat.toString_eq_ofList_toDigits, String.toList_append, String.toList_ofList,
    List.append_assoc, hcolumn, hmessage, List.cons_append, List.nil_append]
  rfl

/-- Findings that are shown alike concern the same line and column. -/
theorem lineColumn_eq_of_render {s s' : Span} (hs : d.span = some s) (hs' : d'.span = some s')
    (h : d.render source = d'.render source) :
    lineColumn source s.start = lineColumn source s'.start := by
  have hchars := congrArg String.toList h
  rw [toList_render hs, toList_render hs'] at hchars
  have hlabel : d.kind.label.toList = d'.kind.label.toList := by
    cases hk : d.kind <;> cases hk' : d'.kind <;> rw [hk, hk'] at hchars <;>
      simp [Kind.label] at hchars ⊢
  rw [hlabel] at hchars
  have hplace := List.append_cancel_left (List.append_cancel_left hchars)
  obtain ⟨hline, hrest⟩ := digitsOf_append_inj rfl rfl hplace
  obtain ⟨-, hrest⟩ := List.cons.inj hrest
  obtain ⟨hcolumn, -⟩ := digitsOf_append_inj rfl rfl (List.append_cancel_left hrest)
  exact Prod.ext hline hcolumn

end Diagnostic

/-- Lines and columns are the true places of offsets, whatever the text is. They count line breaks
and the characters behind the last one, grow with the offset up to the end of the text and stay there,
and tell the offset again, so that no two findings are shown at one place. -/
theorem lineColumn_tells_offset (source : String) :
    (∀ offset, lineColumn source offset =
      (1 + (source.toList.take (min offset source.length)).count '\n',
        1 + (lastLine (source.toList.take (min offset source.length))).length)) ∧
      (∀ offset offset', offset < offset' → offset' ≤ source.length →
        toLex (lineColumn source offset) < toLex (lineColumn source offset')) ∧
      (∀ offset, source.length ≤ offset →
        lineColumn source offset = lineColumn source source.length) ∧
      (∀ offset, offsetAt source (lineColumn source offset) = min offset source.length) ∧
      ∀ (d d' : Diagnostic) (s s' : Span), d.span = some s → d'.span = some s' →
        s.start ≤ source.length → s'.start ≤ source.length →
          d.render source = d'.render source → s.start = s'.start := by
  refine ⟨fun offset => ?_, fun _ _ => lineColumn_lt, fun offset h => ?_,
    offsetAt_lineColumn source, fun d d' s s' hs hs' hle hle' h => ?_⟩
  · rw [← lineColumn_eq, lineColumn_min]
  · rw [← lineColumn_min, Nat.min_eq_right h]
  · have hplace := congrArg (offsetAt source) (Diagnostic.lineColumn_eq_of_render hs hs' h)
    rwa [offsetAt_lineColumn, offsetAt_lineColumn, Nat.min_eq_left hle,
      Nat.min_eq_left hle'] at hplace

/-- Three lines, the second of them empty, with a character of two bytes. -/
def verse : String := "é=\n\nab"

theorem lineColumn_tells_offset_verse :
    toLex (lineColumn verse 2) < toLex (lineColumn verse 3) ∧
      toLex (lineColumn verse 3) < toLex (lineColumn verse 6) ∧
      lineColumn verse 9 = lineColumn verse 6 ∧ lineColumn verse 6 = (3, 3) ∧
      offsetAt verse (3, 2) = 5 ∧
      Diagnostic.render ⟨.text, "Unexpected expression", some ⟨0, 1⟩⟩ verse ≠
        Diagnostic.render ⟨.text, "Unexpected expression", some ⟨4, 6⟩⟩ verse := by
  obtain ⟨hplace, hlt, hend, hoffset, hshown⟩ := lineColumn_tells_offset verse
  have hlength : verse.length = 6 := rfl
  refine ⟨hlt 2 3 (by decide) (by decide), hlt 3 6 (by decide) (by decide), ?_, hplace 6,
    hoffset 5, fun h => ?_⟩
  · exact (hend 9 (by decide)).trans (by rw [hlength])
  · exact absurd (hshown _ _ _ _ rfl rfl (by decide) (by decide) h) (by decide)

end Patchbay
