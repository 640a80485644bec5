import Mathlib.Data.List.Forall2
import Patchbay.Json.Printer
import Patchbay.Json.Record
import Patchbay.Proofs.Json.Numbers

/-! Values are read back from their text, as long as their numbers are numbers and their texts are
Unicode. -/
namespace Patchbay.Json
open Text Number

/-- A part of a string that stands for a character. Only control characters are written by their
number. -/
def Piece.Stands (c : Char) : Piece → Prop
  | .char d => d = c
  | .unit value => value = c.toNat ∧ value < 0x20

theorem hexNumber?_control : ∀ n < 0x20,
    hexNumber? ['0', '0', hexDigit (n / 16), hexDigit n] = some n := by
  decide

theorem readPieces_escapeChar (c : Char) : ∃ piece : Piece, piece.Stands c ∧
    ∀ done rest, readPieces done (escapeChar c ++ rest) = readPieces (piece :: done) rest := by
  rw [escapeChar.eq_def]
  split
  case h_8 hquote hslash _ _ _ _ _ =>
    split
    · next hcontrol =>
      refine ⟨.unit c.toNat, ⟨rfl, hcontrol⟩, fun done rest => ?_⟩
      simp [readPieces, hexNumber?_control c.toNat hcontrol]
    · next hplain =>
      refine ⟨.char c, rfl, fun done rest => ?_⟩
      simp [readPieces, hplain, show c ≠ '\\' from hslash]
  all_goals exact ⟨.char _, rfl, fun done rest => by simp [readPieces, shortEscape?]⟩

theorem readPieces_escaped (cs : List Char) (done : List Piece) (rest : List Char) :
    ∃ pieces, List.Forall₂ Piece.Stands cs pieces ∧
      readPieces done (cs.flatMap escapeChar ++ '"' :: rest) =
        some (done.reverse ++ pieces, rest) := by
  induction cs generalizing done with
  | nil => exact ⟨[], .nil, by simp [readPieces]⟩
  | cons c cs ih =>
    obtain ⟨piece, hstands, hread⟩ := readPieces_escapeChar c
    obtain ⟨pieces, hpieces, hrest⟩ := ih (piece :: done)
    refine ⟨piece :: pieces, .cons hstands hpieces, ?_⟩
    rw [List.flatMap_cons, List.append_assoc, hread, hrest]
    simp

theorem joinPieces_unit {value : Nat} (h : value < 0xD800) (done : List Char) (rest : List Piece) :
    joinPieces done (.unit value :: rest) = joinPieces (Char.ofNat value :: done) rest := by
  have hlow : ¬ 0xD800 ≤ value := by omega
  have hhigh : ¬ 0xDC00 ≤ value := by omega
  cases rest with
  | nil => simp [joinPieces, hlow]
  | cons piece rest => cases piece <;> simp [joinPieces, hlow, hhigh]

theorem joinPieces_stands {cs : List Char} {pieces : List Piece}
    (h : List.Forall₂ Piece.Stands cs pieces) (done : List Char) :
    joinPieces done pieces = some (String.ofList (done.reverse ++ cs)) := by
  induction h generalizing done with
  | nil => simp [joinPieces]
  | @cons c piece cs pieces hc _ ih =>
    cases piece with
    | char d =>
      cases hc
      rw [joinPieces, ih, List.reverse_cons, List.append_assoc, List.singleton_append]
    | unit value =>
      obtain ⟨rfl, hcontrol⟩ := hc
      rw [joinPieces_unit (by omega), ih, Char.ofNat_toNat, List.reverse_cons, List.append_assoc,
        List.singleton_append]

/-- The reader takes a value off the front of a text and leaves the rest. -/
def Reads {α : Type} (read : ∀ cs, Option (Reading α cs)) (cs : List Char) (value : α)
    (rest : List Char) : Prop :=
  ∃ h, read cs = some ⟨value, rest, h⟩

theorem exists_reading {α : Type} {cs rest : List Char} {value : α} (r : Reading α cs)
    (hv : r.value = value) (hr : r.rest = rest) : ∃ h, some r = some ⟨value, rest, h⟩ := by
  cases r
  cases hv
  cases hr
  exact ⟨_, rfl⟩

theorem readString_escaped (text : String) (rest : List Char) :
    Reads readString (text.toList.flatMap escapeChar ++ '"' :: rest) (some text) rest := by
  obtain ⟨pieces, hpieces, hread⟩ := readPieces_escaped text.toList [] rest
  rw [Reads, readString]
  split
  · next hnone => rw [hread] at hnone; cases hnone
  · next r hr =>
    cases hread.symm.trans hr
    refine exists_reading _ ?_ rfl
    simp [joinPieces_stands hpieces]

theorem skipGap_cons {c : Char} (h : isGap c = false) (cs : List Char) :
    skipGap (c :: cs) = c :: cs := List.dropWhile_cons_of_neg (by simp [h])

theorem skipGap_newline (level : Nat) (cs : List Char) :
    skipGap (newline level ++ cs) = skipGap cs := by
  have hgap : ∀ c ∈ newline level, isGap c = true := by
    refine List.forall_mem_cons.mpr ⟨rfl, fun c hc => ?_⟩
    rw [List.eq_of_mem_replicate hc]
    rfl
  exact List.dropWhile_append_of_pos hgap

theorem ends_newline (level : Nat) (rest : List Char) : Ends (newline level ++ rest) := by
  rintro c ⟨⟩
  decide

theorem ends_comma (rest : List Char) : Ends (',' :: rest) := by
  rintro c ⟨⟩
  decide

/-- A value with a text of its own: numbers are numbers, and texts and keys are Unicode. -/
inductive Proper : Json → Prop where
  | null : Proper .null
  | bool (value : Bool) : Proper (.bool value)
  | number {n : Number} : n.Proper → Proper (.number n)
  | string (text : String) : Proper (.string (some text))
  | array {items : List Json} : (∀ item ∈ items, Proper item) → Proper (.array items)
  | object {members : List (Option String × Json)} : (∀ m ∈ members, m.1.isSome = true) →
      (∀ m ∈ members, Proper m.2) → Proper (.object members)

/-- The text starts with a character that is no gap and closes nothing. -/
theorem Proper.head_pretty {j : Json} (h : j.Proper) (level : Nat) :
    ∃ c more, pretty level j = c :: more ∧ isGap c = false ∧ c ≠ ']' := by
  cases h with
  | null => exact ⟨_, _, rfl, by decide⟩
  | bool value => cases value <;> exact ⟨_, _, rfl, by decide⟩
  | @number n hn =>
    obtain ⟨c, more, htext, hc⟩ := hn.exists_text
    refine ⟨c, more, htext, ?_⟩
    rcases hc with rfl | hc
    · decide
    · refine ⟨Bool.eq_false_iff.mpr fun hgap => ?_, ?_⟩
      · simp only [isGap, Bool.or_eq_true, decide_eq_true_eq] at hgap
        rcases hgap with ((rfl | rfl) | rfl) | rfl <;> cases hc
      · rintro rfl
        cases hc
  | string text => exact ⟨_, _, rfl, by decide⟩
  | @array items h => cases items <;> exact ⟨_, _, rfl, by decide⟩
  | @object members hkeys h => cases members <;> exact ⟨_, _, rfl, by decide⟩

theorem Proper.skipGap_pretty {j : Json} (h : j.Proper) (level : Nat) (rest : List Char) :
    skipGap (pretty level j ++ rest) = pretty level j ++ rest := by
  obtain ⟨c, more, htext, hc, _⟩ := h.head_pretty level
  rw [htext]
  exact skipGap_cons hc _

/-- The value is read back from its text, whatever ends it. -/
def Returns (j : Json) : Prop :=
  ∀ level rest, Ends rest → Reads readValue (pretty level j ++ rest) j rest

theorem returns_number {n : Number} (h : n.Proper) : Returns (.number n) := by
  intro level rest hr
  have hread := number?_text h hr
  obtain ⟨c, more, htext, hc⟩ := h.exists_text
  have hother : ∀ d, d = 'n' ∨ d = 't' ∨ d = 'f' ∨ d = '"' ∨ d = '[' ∨ d = '\x7b' → d ≠ c := by
    rintro d hd rfl
    rcases hd with rfl | rfl | rfl | rfl | rfl | rfl <;> rcases hc with h | h <;> cases h
  have hhead : ∀ d ds, n.text ++ rest = d :: ds → d = c := by
    intro d ds hds
    rw [htext] at hds
    exact (List.cons.inj hds).1.symm
  -- By its first character the text is none of the other kinds of values.
  rw [Reads, pretty, readValue]
  · split
    · next hnone => cases hread.symm.trans hnone
    · next m hm =>
      cases hread.symm.trans hm
      exact exists_reading _ rfl List.drop_left
  all_goals exact fun ds hds => absurd (hhead _ _ hds) (hother _ (by simp))

theorem returns_string (text : String) : Returns (.string (some text)) := by
  intro level rest _
  obtain ⟨_, hread⟩ := readString_escaped text rest
  have htext : pretty level (.string (some text)) ++ rest =
      '"' :: (text.toList.flatMap escapeChar ++ '"' :: rest) := by
    simp [pretty, quoted]
  rw [Reads, htext, readValue, hread]
  exact exists_reading _ rfl rfl

section
variable {cs after rest last : List Char} {item : Json} {done items : List Json}

theorem reads_emptyArray (hgap : skipGap cs = ']' :: rest) :
    Reads readValue ('[' :: cs) (.array []) rest := by
  rw [Reads, readValue]
  split
  · next heq =>
    cases hgap.symm.trans heq
    exact exists_reading _ rfl rfl
  · next hno => exact absurd hgap (hno _)

theorem reads_array (hclose : ∀ after, skipGap cs ≠ ']' :: after)
    (h : Reads (readItems []) (skipGap cs) items rest) :
    Reads readValue ('[' :: cs) (.array items) rest := by
  obtain ⟨_, hread⟩ := h
  rw [Reads, readValue]
  split
  · next heq => exact absurd heq (hclose _)
  · rw [hread]
    exact exists_reading _ rfl rfl

/-- The closing bracket or a comma with more items stands behind an item. -/
theorem reads_item (hread : Reads readValue cs item after)
    (hnext : skipGap after = ']' :: last ∧ items = (item :: done).reverse ∨
      ∃ rest, skipGap after = ',' :: rest ∧
        Reads (readItems (item :: done)) (skipGap rest) items last) :
    Reads (readItems done) cs items last := by
  obtain ⟨_, hread⟩ := hread
  rw [Reads, readItems, hread]
  dsimp only
  rcases hnext with ⟨hgap, rfl⟩ | ⟨rest, hgap, _, hmore⟩
  · split
    · next heq =>
      cases hgap.symm.trans heq
      exact exists_reading _ rfl rfl
    · next heq => cases hgap.symm.trans heq
    · next hno _ => exact absurd hgap (hno _)
  · split
    · next heq => cases hgap.symm.trans heq
    · next heq =>
      cases hgap.symm.trans heq
      rw [hmore]
      exact exists_reading _ rfl rfl
    · next _ hno => exact absurd hgap (hno _)

end

/-- Items are read up to the closing bracket, which stands at an outer level. -/
theorem readItems_pretty {item : Json} {more : List Json} (hproper : ∀ j ∈ item :: more, j.Proper)
    (h : ∀ j ∈ item :: more, Returns j) (level outer : Nat) (done : List Json)
    (rest : List Char) : Reads (readItems done)
      (pretty level item ++ (prettyItems level more ++ (newline outer ++ ']' :: rest)))
      (done.reverse ++ item :: more) rest := by
  have hread := (h item (by simp) level · ·)
  induction more generalizing item done with
  | nil =>
    refine reads_item (hread _ (ends_newline outer (']' :: rest))) (.inl ⟨?_, ?_⟩)
    · exact skipGap_newline outer _
    · rw [List.reverse_cons]
  | cons second more ih =>
    obtain ⟨_, hproper⟩ := List.forall_mem_cons.mp hproper
    obtain ⟨_, h⟩ := List.forall_mem_cons.mp h
    have hmore := ih hproper h (item :: done) (h second (by simp) level · ·)
    rw [List.reverse_cons, List.append_assoc, List.singleton_append] at hmore
    have htext : prettyItems level (second :: more) ++ (newline outer ++ ']' :: rest) =
        ',' :: (newline level ++
          (pretty level second ++ (prettyItems level more ++ (newline outer ++ ']' :: rest)))) := by
      simp [prettyItems]
    rw [htext]
    refine reads_item (hread _ (ends_comma _)) (.inr ⟨_, skipGap_cons (by decide) _, ?_⟩)
    rw [skipGap_newline, (hproper second (by simp)).skipGap_pretty]
    exact hmore

theorem returns_array {items : List Json} (hproper : ∀ j ∈ items, j.Proper)
    (h : ∀ j ∈ items, Returns j) : Returns (.array items) := by
  intro level rest _
  cases items with
  | nil => exact reads_emptyArray (skipGap_cons (by decide) rest)
  | cons item more =>
    have hfirst := hproper item (by simp)
    have hread := readItems_pretty hproper h (level + 1) level [] rest
    have htext : pretty level (.array (item :: more)) ++ rest = '[' :: (newline (level + 1) ++
        (pretty (level + 1) item ++ (prettyItems (level + 1) more ++
          (newline level ++ ']' :: rest)))) := by
      simp [pretty]
    rw [htext]
    rw [← hfirst.skipGap_pretty, ← skipGap_newline (level + 1)] at hread
    refine reads_array (fun after heq => ?_) hread
    obtain ⟨c, cs, hcs, _, hclose⟩ := hfirst.head_pretty (level + 1)
    rw [skipGap_newline, hfirst.skipGap_pretty, hcs] at heq
    exact hclose (List.cons.inj heq).1

/-- A key, a colon and a value are taken off the front, behind the opening quote. -/
def ReadsMember (cs : List Char) (member : Option String × Json) (rest : List Char) : Prop :=
  ∃ colon value, Reads readString cs member.1 colon ∧ skipGap colon = ':' :: value ∧
    Reads readValue (skipGap value) member.2 rest

section
variable {cs after rest last : List Char} {member : Option String × Json}
variable {done members : List (Option String × Json)}

theorem reads_emptyObject (hgap : skipGap cs = '\x7d' :: rest) :
    Reads readValue ('\x7b' :: cs) (.object []) rest := by
  rw [Reads, readValue]
  split
  · next heq =>
    cases hgap.symm.trans heq
    exact exists_reading _ rfl rfl
  · next hno => exact absurd hgap (hno _)

theorem reads_object (hclose : ∀ after, skipGap cs ≠ '\x7d' :: after)
    (h : Reads (readMembers []) (skipGap cs) members rest) :
    Reads readValue ('\x7b' :: cs) (.object members) rest := by
  obtain ⟨_, hread⟩ := h
  rw [Reads, readValue]
  split
  · next heq => exact absurd heq (hclose _)
  · rw [hread]
    exact exists_reading _ rfl rfl

theorem reads_member (hread : ReadsMember cs member after)
    (hnext : skipGap after = '\x7d' :: last ∧ members = (member :: done).reverse ∨
      ∃ rest, skipGap after = ',' :: rest ∧
        Reads (readMembers (member :: done)) (skipGap rest) members last) :
    Reads (readMembers done) ('"' :: cs) members last := by
  obtain ⟨colon, value, ⟨_, hkey⟩, hcolon, ⟨_, hread⟩⟩ := hread
  rw [Reads, readMembers, hkey]
  dsimp only
  split
  · next heq =>
    cases hcolon.symm.trans heq
    rw [hread]
    dsimp only
    rcases hnext with ⟨hgap, rfl⟩ | ⟨rest, hgap, _, hmore⟩
    · split
      · next heq =>
        cases hgap.symm.trans heq
        exact exists_reading _ rfl rfl
      · next heq => cases hgap.symm.trans heq
      · next hno _ => exact absurd hgap (hno _)
    · split
      · next heq => cases hgap.symm.trans heq
      · next heq =>
        cases hgap.symm.trans heq
        rw [hmore]
        exact exists_reading _ rfl rfl
      · next _ hno => exact absurd hgap (hno _)
  · next hno => exact absurd hcolon (hno _)

end

theorem skipGap_prettyMember (level : Nat) (member : Option String × Json) (rest : List Char) :
    skipGap (prettyMember level member ++ rest) = prettyMember level member ++ rest := by
  obtain ⟨key, item⟩ := member
  cases key <;> exact skipGap_cons (by decide) _

theorem readsMember_pretty {member : Option String × Json} (hkey : member.1.isSome = true)
    (hproper : member.2.Proper) (h : Returns member.2) (level : Nat) (after : List Char)
    (hafter : Ends after) :
    ∃ cs, prettyMember level member ++ after = '"' :: cs ∧ ReadsMember cs member after := by
  obtain ⟨key, item⟩ := member
  obtain ⟨name, rfl⟩ := Option.isSome_iff_exists.mp hkey
  refine ⟨name.toList.flatMap escapeChar ++ '"' :: ':' :: ' ' :: (pretty level item ++ after), ?_,
    _, _, readString_escaped name _, skipGap_cons (by decide) _, ?_⟩
  · simp [prettyMember, quoted]
  · have hgap : skipGap (' ' :: (pretty level item ++ after)) = pretty level item ++ after :=
      hproper.skipGap_pretty level after
    rw [hgap]
    exact h level after hafter

theorem readMembers_pretty {member : Option String × Json} {more : List (Option String × Json)}
    (hkeys : ∀ m ∈ member :: more, m.1.isSome = true)
    (hproper : ∀ m ∈ member :: more, m.2.Proper) (h : ∀ m ∈ member :: more, Returns m.2)
    (level outer : Nat) (done : List (Option String × Json)) (rest : List Char) :
    Reads (readMembers done)
      (prettyMember level member ++ (prettyMembers level more ++ (newline outer ++ '\x7d' :: rest)))
      (done.reverse ++ member :: more) rest := by
  have hread := readsMember_pretty (hkeys member (by simp)) (hproper member (by simp))
    (h member (by simp)) level
  induction more generalizing member done with
  | nil =>
    obtain ⟨cs, htext, hread⟩ := hread _ (ends_newline outer ('\x7d' :: rest))
    rw [prettyMembers, List.nil_append, htext]
    refine reads_member hread (.inl ⟨?_, ?_⟩)
    · exact skipGap_newline outer _
    · rw [List.reverse_cons]
  | cons second more ih =>
    obtain ⟨_, hkeys⟩ := List.forall_mem_cons.mp hkeys
    obtain ⟨_, hproper⟩ := List.forall_mem_cons.mp hproper
    obtain ⟨_, h⟩ := List.forall_mem_cons.mp h
    have hmore := ih hkeys hproper h (member :: done) <|
      readsMember_pretty (hkeys second (by simp)) (hproper second (by simp)) (h second (by simp))
        level
    rw [List.reverse_cons, List.append_assoc, List.singleton_append] at hmore
    have hcomma : prettyMembers level (second :: more) ++ (newline outer ++ '\x7d' :: rest) =
        ',' :: (newline level ++ (prettyMember level second ++
          (prettyMembers level more ++ (newline outer ++ '\x7d' :: rest)))) := by
      simp [prettyMembers]
    rw [hcomma]
    obtain ⟨cs, htext, hread⟩ := hread _ (ends_comma _)
    rw [htext]
    refine reads_member hread (.inr ⟨_, skipGap_cons (by decide) _, ?_⟩)
    rw [skipGap_newline, skipGap_prettyMember]
    exact hmore

theorem returns_object {members : List (Option String × Json)}
    (hkeys : ∀ m ∈ members, m.1.isSome = true) (hproper : ∀ m ∈ members, m.2.Proper)
    (h : ∀ m ∈ members, Returns m.2) : Returns (.object members) := by
  intro level rest _
  cases members with
  | nil => exact reads_emptyObject (skipGap_cons (by decide) rest)
  | cons member more =>
    have hread := readMembers_pretty hkeys hproper h (level + 1) level [] rest
    have htext : pretty level (.object (member :: more)) ++ rest = '\x7b' :: (newline (level + 1) ++
        (prettyMember (level + 1) member ++ (prettyMembers (level + 1) more ++
          (newline level ++ '\x7d' :: rest)))) := by
      simp [pretty]
    rw [htext]
    rw [← skipGap_prettyMember, ← skipGap_newline (level + 1)] at hread
    refine reads_object (fun after heq => ?_) hread
    rw [skipGap_newline, skipGap_prettyMember] at heq
    obtain ⟨key, item⟩ := member
    cases key <;> cases heq

theorem Proper.returns {j : Json} (h : j.Proper) : Returns j := by
  -- The laws of lists take those of their items at any level, so each case only hands them on.
  induction h with
  | null =>
    intro level rest _
    exact ⟨_, readValue.eq_1 rest⟩
  | bool value =>
    intro level rest _
    cases value with
    | true => exact ⟨_, readValue.eq_2 rest⟩
    | false => exact ⟨_, readValue.eq_3 rest⟩
  | number hn => exact returns_number hn
  | string text => exact returns_string text
  | array hproper ih => exact returns_array hproper ih
  | object hkeys hproper ih => exact returns_object hkeys hproper ih

/-- The text of a proper value stands for this value. -/
theorem ofText?_prettyText {j : Json} (h : j.Proper) : ofText? j.prettyText = some j := by
  have hread := h.returns 0 [] (by simp [Ends])
  have hgap : skipGap j.prettyText.toList = pretty 0 j ++ [] := by
    rw [prettyText, String.toList_ofList, ← h.skipGap_pretty 0 [], List.append_nil]
  rw [← hgap] at hread
  obtain ⟨_, hread⟩ := hread
  rw [ofText?, hread]
  rfl

end Patchbay.Json
