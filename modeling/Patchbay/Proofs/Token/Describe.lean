import Patchbay.Proofs.Decimal.Sign
import Patchbay.Proofs.Token.Coverage

/-! Tokens as messages show them, scanned again. Joined by single spaces they come back as they
were, whatever stands next to what. -/
namespace Patchbay.Token
open Decimal
open Json.Number (takeWhile_front)

/-- What may stand behind a token: nothing, or a space. -/
def Apart (rest : List Char) : Prop := ∀ c, rest.head? = some c → c = ' '

/-- A token is at the front of any text that goes on apart from it. -/
def LexesTo (kind : Kind) (text : List Char) : Prop :=
  ∀ rest, Apart rest → lexeme? (text ++ rest) = some ⟨kind, text⟩

variable {rest : List Char}

theorem lexesTo_operator (o : Operator) : LexesTo (.operator o) o.text.toList := by
  intro rest hr
  cases rest with
  | nil => cases o <;> rfl
  | cons c rest =>
    obtain rfl := hr c rfl
    cases o <;> rfl

theorem lexesTo_mark (m : Mark) : LexesTo (.mark m) [m.char] := by
  intro rest _
  cases m <;> rfl

theorem operator?_of_nameStart {c : Char} (h : isNameStart c = true) (rest : List Char) :
    operator? (c :: rest) = none := by
  rw [operator?.eq_def]
  split
  all_goals first
    | rfl
    | next heq =>
      obtain ⟨rfl, -⟩ := List.cons.inj heq
      cases h

theorem not_isDigit_of_nameStart {c : Char} (h : isNameStart c = true) : isDigit c = false := by
  rw [Bool.eq_false_iff]
  intro hd
  simp only [isDigit, isNameStart, isLetter, Bool.and_eq_true, Bool.or_eq_true,
    decide_eq_true_eq] at hd h
  obtain (⟨hlow, -⟩ | ⟨hlow, -⟩) | rfl := h
  · exact absurd (le_trans hlow hd.2) (by decide)
  · exact absurd (le_trans hlow hd.2) (by decide)
  · exact absurd hd.2 (by decide)

theorem lexesTo_word {word : List Char} (h : IsWord word) :
    LexesTo (wordKind (String.ofList word)) word := by
  intro rest hr
  obtain ⟨c, more, rfl, hc, hmore⟩ := h
  have hchar : isNameChar c = true := by
    rw [isNameStart, Bool.or_eq_true] at hc
    simp only [isNameChar, Bool.or_eq_true]
    exact hc.elim (fun h => .inl (.inl h)) .inr
  have hfront : ((c :: more) ++ rest).takeWhile isNameChar = c :: more :=
    takeWhile_front (List.forall_mem_cons.mpr ⟨hchar, hmore⟩) fun d hd => by rw [hr d hd]; rfl
  rw [List.cons_append] at hfront ⊢
  rw [lexeme?]
  simp only [not_isDigit_of_nameStart hc, operator?_of_nameStart hc, hc, hfront, if_true,
    Bool.false_eq_true, if_false]

theorem isWord_cons {c : Char} {more : List Char} (hc : isNameStart c = true)
    (hmore : more.all isNameChar = true) : IsWord (c :: more) :=
  ⟨c, more, rfl, hc, List.all_eq_true.mp hmore⟩

theorem isWord_keyword (k : Keyword) : IsWord k.text.toList := by
  have word : ∀ c more, isNameStart c = true → more.all isNameChar = true → IsWord (c :: more) :=
    fun _ _ => isWord_cons
  cases k with
  | new => exact word 'n' ['e', 'w'] rfl rfl
  | bi => exact word 'b' ['i'] rfl rfl
  | startVoice => exact word 's' ['t', 'a', 'r', 't', 'v', 'o', 'i', 'c', 'e'] rfl rfl
  | endVoice => exact word 'e' ['n', 'd', 'v', 'o', 'i', 'c', 'e'] rfl rfl

theorem wordKind_keyword (k : Keyword) : wordKind k.text = .keyword k := by
  cases k <;> rfl

theorem wordKind_name {text : String} (h : ∀ k : Keyword, k.text ≠ text) :
    wordKind text = .name text := by
  rw [wordKind]
  split
  · next k hk =>
    refine absurd ?_ (h k)
    rw [Keyword.ofWord?.eq_def] at hk
    split at hk <;> cases hk <;> rfl
  · rfl

/-- Digits, and perhaps a point with digits. -/
structure Plain (whole fraction : List Char) : Prop where
  whole : Digits whole
  fraction : fraction = [] ∨ ∃ ds, fraction = '.' :: ds ∧ ∀ c ∈ ds, isDigit c = true

theorem Plain.filter_eq {whole fraction : List Char} (h : Plain whole fraction) :
    (whole ++ fraction).filter (· ≠ '_') = whole ++ fraction := by
  have digit : ∀ c, isDigit c = true → c ≠ '_' := by
    rintro c hc rfl
    cases hc
  refine List.filter_eq_self.mpr fun c hc => decide_eq_true ?_
  rcases List.mem_append.mp hc with hwhole | hfraction
  · exact digit c (h.whole.2 c hwhole)
  · obtain rfl | ⟨ds, rfl, hds⟩ := h.fraction
    · cases hfraction
    · obtain rfl | hds' := List.mem_cons.mp hfraction
      · decide
      · exact digit c (hds c hds')

theorem plain_writePositional (d : Decimal) : ∃ whole fraction,
    writePositional false d = ⟨whole, fraction, []⟩ ∧ Plain whole fraction := by
  have hdigits := digits_digitsOf d.digits
  have hzeros := Json.Number.isDigit_replicate
  rw [writePositional]
  generalize digitsOf d.digits = ds at hdigits
  split
  · refine ⟨_, _, rfl, ⟨?_, List.forall_mem_append.mpr ⟨hdigits.2, hzeros _⟩⟩, .inl rfl⟩
    exact List.append_ne_nil_of_left_ne_nil hdigits.1 _
  · split
    · next hplaces =>
      refine ⟨_, _, rfl, ⟨?_, fun c hc => hdigits.2 c (List.mem_of_mem_take hc)⟩,
        .inr ⟨_, rfl, fun c hc => hdigits.2 c (List.mem_of_mem_drop hc)⟩⟩
      rw [ne_eq, List.take_eq_nil_iff, not_or]
      exact ⟨by omega, hdigits.1⟩
    · refine ⟨_, _, rfl, ⟨List.cons_ne_nil _ _, hzeros 1⟩, .inr ⟨_, rfl, ?_⟩⟩
      exact List.forall_mem_append.mpr ⟨hzeros _, hdigits.2⟩

/-- A finite number without sign is shown with digits and perhaps a point. -/
theorem plain_literalText {value : Float} (hfinite : value.isFinite = true)
    (hsign : isNegative value = false) : ∃ whole fraction,
      (literalText value).toList = whole ++ fraction ∧ Plain whole fraction := by
  obtain ⟨hnan, hinf⟩ := isFinite_iff.mp hfinite
  have hwritten : ∃ d, literal.write value = writePositional false d := by
    rw [Layout.write]
    split
    · exact ⟨_, rfl⟩
    · exact ⟨_, if_pos rfl⟩
  obtain ⟨d, hd⟩ := hwritten
  obtain ⟨whole, fraction, hparts, hplain⟩ := plain_writePositional d
  refine ⟨whole, fraction, ?_, hplain⟩
  rw [literalText, hnan, hinf, if_neg Bool.false_ne_true, if_neg Bool.false_ne_true, finiteText,
    hsign, if_neg Bool.false_ne_true, hd, hparts, String.toList_ofList, Written.text,
    List.append_nil]

/-- Neither a digit nor a part of a power or fraction is what stands behind the digits. -/
theorem behind_digits {unit : List Char} (hu : ∀ c ∈ unit, isUnitChar c = true) (hr : Apart rest)
    {c : Char} (hc : (unit ++ rest).head? = some c) :
    isPlace c = false ∧ c ≠ '.' ∧ c ≠ '+' ∧ c ≠ '-' := by
  have hcases : isUnitChar c = true ∨ c = ' ' := by
    cases unit with
    | nil => exact .inr (hr c hc)
    | cons d unit =>
      obtain rfl := Option.some.inj hc
      exact .inl (hu d List.mem_cons_self)
  rcases hcases with hunit | rfl
  · rw [isUnitChar, Bool.or_eq_true, decide_eq_true_eq] at hunit
    rcases hunit with hletter | rfl
    · have hstart : isNameStart c = true := by rw [isNameStart, hletter]; rfl
      have hline : c ≠ '_' := by rintro rfl; cases hletter
      rw [isPlace, not_isDigit_of_nameStart hstart, Bool.false_or, decide_eq_false_iff_not]
      refine ⟨hline, ?_, ?_, ?_⟩ <;> rintro rfl <;> cases hletter
    · decide
  · decide

/-- A unit is no power, even if it starts with an `e`. -/
theorem scanPower_unit {unit : List Char} (hu : ∀ c ∈ unit, isUnitChar c = true) (hr : Apart rest) :
    scanPower (unit ++ rest) = [] := by
  cases unit with
  | nil =>
    cases rest with
    | nil => rfl
    | cons c rest =>
      obtain rfl := hr c rfl
      rfl
  | cons e unit =>
    have hnext := fun c => behind_digits (c := c) (List.forall_mem_cons.mp hu).2 hr
    rw [List.cons_append]
    generalize unit ++ rest = more at hnext
    cases more with
    | nil => simp [scanPower]
    | cons c more =>
      obtain ⟨hplace, -, hplus, hminus⟩ := hnext c rfl
      simp [scanPower, hplus, hminus, hplace]

theorem scanLiteral_plain {whole fraction unit : List Char} (h : Plain whole fraction)
    (hu : ∀ c ∈ unit, isUnitChar c = true) (hr : Apart rest) :
    scanLiteral (whole ++ (fraction ++ (unit ++ rest))) = ⟨whole, fraction, [], unit⟩ := by
  have hplaces : ∀ {cs : List Char}, (∀ c ∈ cs, isDigit c = true) → ∀ c ∈ cs, isPlace c = true :=
    fun h c hc => by rw [isPlace, h c hc]; rfl
  have hbehind := fun c => behind_digits (c := c) hu hr
  have hwhole : (whole ++ (fraction ++ (unit ++ rest))).takeWhile isPlace = whole := by
    refine takeWhile_front (hplaces h.whole.2) fun c hc => ?_
    obtain rfl | ⟨ds, rfl, -⟩ := h.fraction
    · exact (hbehind c hc).1
    · obtain rfl := Option.some.inj hc
      rfl
  have hfraction : scanFraction (fraction ++ (unit ++ rest)) = fraction := by
    obtain rfl | ⟨ds, rfl, hds⟩ := h.fraction
    · rw [List.nil_append, scanFraction.eq_def]
      split
      · next hpoint => exact absurd rfl (hbehind '.' (by rw [hpoint]; rfl)).2.1
      · rfl
    · have hmore := takeWhile_front (hplaces hds) fun c hc => (hbehind c hc).1
      exact congrArg ('.' :: ·) hmore
  have hunit : (unit ++ rest).takeWhile isUnitChar = unit :=
    takeWhile_front hu fun c hc => by rw [hr c hc]; rfl
  rw [scanLiteral]
  simp only [hwhole, List.drop_left, hfraction, scanPower_unit hu hr, List.length_nil,
    List.drop_zero, hunit]

/-- What is shown for a number reads back to it. -/
def ReadsBack (value : Float) : Prop := Decimal.value? (literalText value).toList = some value

instance (value : Float) : Decidable (ReadsBack value) := inferInstanceAs (Decidable (_ = _))

/-- A token that a text can have: a name is a word and no keyword, a number is finite, without sign
and with letters and percent signs for a unit. -/
def Kind.Writable : Kind → Prop
  | .keyword _ | .operator _ | .mark _ => True
  | .name text => IsWord text.toList ∧ ∀ k : Keyword, k.text ≠ text
  | .number value unit => value.isFinite = true ∧ isNegative value = false ∧
    ∀ c ∈ unit.toList, isUnitChar c = true

theorem lexesTo_number {value : Float} {unit : String} (h : Kind.Writable (.number value unit))
    (hreads : ReadsBack value) :
    LexesTo (.number value unit) (Kind.describe (.number value unit)).toList := by
  intro rest hr
  obtain ⟨hfinite, hsign, hunit⟩ := h
  obtain ⟨whole, fraction, hparts, hplain⟩ := plain_literalText hfinite hsign
  have hdescribe : (Kind.describe (.number value unit)).toList =
      whole ++ (fraction ++ unit.toList) := by
    rw [Kind.describe, String.toList_append, hparts, List.append_assoc]
  have hscan := scanLiteral_plain hplain hunit hr
  obtain ⟨d, ds, hwhole⟩ := List.exists_cons_of_ne_nil hplain.whole.1
  have hd : isDigit d = true := hplain.whole.2 d (hwhole ▸ List.mem_cons_self)
  obtain ⟨more, hfront⟩ : ∃ more, whole ++ (fraction ++ (unit.toList ++ rest)) = d :: more :=
    ⟨_, by rw [hwhole, List.cons_append]⟩
  rw [hfront] at hscan
  have hvalue : (scanLiteral (d :: more)).value = value := by
    have hread := (scanLiteral_proper hd more).value?_plain
    rw [Literal.plain, hscan] at hread
    rw [hscan]
    dsimp only at hread
    rw [List.append_nil, hplain.filter_eq, ← hparts] at hread
    exact Option.some.inj (hread.symm.trans hreads)
  rw [hdescribe, List.append_assoc, List.append_assoc, hfront, lexeme?]
  simp only [hd, if_true, hvalue]
  rw [hscan, String.ofList_toList, Literal.text, List.append_nil, List.append_assoc]

theorem lexesTo_describe {kind : Kind} (h : kind.Writable)
    (hreads : ∀ value unit, kind = .number value unit → ReadsBack value) :
    LexesTo kind kind.describe.toList := by
  cases kind with
  | keyword k =>
    have hword := lexesTo_word (isWord_keyword k)
    rwa [String.ofList_toList, wordKind_keyword] at hword
  | operator o => exact lexesTo_operator o
  | mark m =>
    rw [Kind.describe, String.toList_singleton]
    exact lexesTo_mark m
  | name text =>
    have hword := lexesTo_word h.1
    rwa [String.ofList_toList, wordKind_name h.2] at hword
  | number value unit => exact lexesTo_number h (hreads value unit rfl)

theorem isBlank_eq_false {c : Char} (hlow : '!' ≤ c) (hhigh : c ≤ 'z') :
    Text.isBlank c = false := by
  have hlow' : 33 ≤ c.toNat := hlow
  have hhigh' : c.toNat ≤ 122 := hhigh
  simp [Text.isBlank, Text.blankRanges]
  omega

/-- What a token starts with is neither white space nor a slash. -/
theorem front_of_lexeme? {c : Char} {l : Lexeme} (h : lexeme? (c :: rest) = some l) :
    Text.isBlank c = false ∧ c ≠ '/' := by
  have hbounds : ('!' ≤ c ∧ c ≤ 'z') ∧ c ≠ '/' := by
    simp only [lexeme?] at h
    split at h
    · next hd =>
      rw [isDigit, Bool.and_eq_true, decide_eq_true_eq, decide_eq_true_eq] at hd
      refine ⟨⟨le_trans (by decide) hd.1, le_trans hd.2 (by decide)⟩, ?_⟩
      rintro rfl
      exact absurd hd.1 (by decide)
    · split at h
      · next o ho =>
        obtain ⟨more, hmore⟩ := prefix_of_operator? ho
        cases o <;> obtain ⟨rfl, -⟩ := List.cons.inj hmore <;> decide
      · split at h
        · next hn =>
          simp only [isNameStart, isLetter, Bool.and_eq_true, Bool.or_eq_true,
            decide_eq_true_eq] at hn
          obtain (⟨hlow, hhigh⟩ | ⟨hlow, hhigh⟩) | rfl := hn
          · refine ⟨⟨le_trans (by decide) hlow, hhigh⟩, ?_⟩
            rintro rfl
            exact absurd hlow (by decide)
          · refine ⟨⟨le_trans (by decide) hlow, le_trans hhigh (by decide)⟩, ?_⟩
            rintro rfl
            exact absurd hlow (by decide)
          · decide
        · obtain ⟨m, hm, -⟩ := Option.map_eq_some_iff.mp h
          obtain rfl : m.char = c := by
            rw [Mark.ofChar?.eq_def] at hm
            split at hm <;> cases hm <;> rfl
          cases m <;> decide
  exact ⟨isBlank_eq_false hbounds.1.1 hbounds.1.2, hbounds.2⟩

/-- A token is scanned first, and what is behind it as if nothing were in front. -/
theorem kinds_scanFrom_append (start : Nat) {kind : Kind} {text : List Char}
    (h : LexesTo kind text) (hr : Apart rest) :
    (scanFrom start (text ++ rest)).map Token.kind =
      kind :: (scanFrom (start + text.length) rest).map Token.kind := by
  have hl := h rest hr
  obtain ⟨c, more, hfront⟩ : ∃ c more, text ++ rest = c :: more :=
    List.exists_cons_of_ne_nil (List.append_ne_nil_of_left_ne_nil (text_ne_nil_of_lexeme? hl) _)
  rw [hfront] at hl ⊢
  obtain ⟨hblank, hslash⟩ := front_of_lexeme? hl
  have hcomment : startsComment (c :: more) = false := by
    rw [Bool.eq_false_iff]
    intro hs
    obtain ⟨_, htail⟩ := startsComment_iff.mp hs
    exact hslash (List.cons.inj htail).1.symm
  rw [scanFrom_of_lexeme? start hblank hcomment hl, List.map_cons, ← hfront, List.drop_left]

theorem kinds_scanFrom (start : Nat) {kinds : List Kind}
    (h : ∀ kind ∈ kinds, LexesTo kind kind.describe.toList) :
    (scanFrom start ([' '].intercalate (kinds.map fun kind => kind.describe.toList))).map
      Token.kind = kinds := by
  induction kinds generalizing start with
  | nil =>
    rw [List.map_nil, List.intercalate_nil, scanFrom]
    rfl
  | cons kind kinds ih =>
    obtain ⟨hkind, hkinds⟩ := List.forall_mem_cons.mp h
    cases kinds with
    | nil =>
      have hnone : Apart [] := fun c hc => by cases hc
      have hlast := kinds_scanFrom_append start hkind hnone
      rw [scanFrom, List.append_nil] at hlast
      rw [List.map_singleton, List.intercalate_singleton]
      exact hlast
    | cons next kinds =>
      have hmore := fun start => ih start hkinds
      rw [List.map_cons] at hmore
      rw [List.map_cons, List.map_cons, List.intercalate_cons_cons, List.append_assoc]
      generalize [' '].intercalate _ = more at hmore ⊢
      have hspace : Apart ([' '] ++ more) := fun c hc => (Option.some.inj hc).symm
      have hblank : Text.isBlank ' ' = true := rfl
      rw [kinds_scanFrom_append start hkind hspace, List.singleton_append, scanFrom,
        if_pos hblank, hmore]

/-- Tokens that a text can have, as messages show them and with single spaces between them, are
scanned as they were. -/
theorem kinds_scan_describe {kinds : List Kind} (hwritable : ∀ kind ∈ kinds, kind.Writable)
    (hreads : ∀ value unit, .number value unit ∈ kinds → ReadsBack value) :
    (scan (" ".intercalate (kinds.map Kind.describe))).map Token.kind = kinds := by
  rw [scan, String.toList_intercalate, List.map_map]
  refine kinds_scanFrom 0 fun kind hkind => lexesTo_describe (hwritable kind hkind) ?_
  rintro value unit rfl
  exact hreads value unit hkind

theorem writable_of_spells {kind : Kind} {cs : List Char} (h : Spells kind cs)
    (hfinite : ∀ value unit, kind = .number value unit → value.isFinite = true) :
    kind.Writable := by
  cases h with
  | keyword => trivial
  | operator => trivial
  | mark => trivial
  | name text h hk => exact ⟨h, hk⟩
  | @number l value h hv =>
    obtain rfl : l.value = value := Option.some.inj (h.value?_plain.symm.trans hv)
    exact ⟨hfinite _ _ rfl, isNegative_toFloat _, by rw [String.toList_ofList]; exact h.unit⟩

/-- Scanning undoes showing. Whatever tokens there are, joined by single spaces they come back; so
do those of any text whose numbers are finite. The number that is shown has to read back. -/
theorem scan_describe :
    (∀ kinds : List Kind, (∀ kind ∈ kinds, kind.Writable) →
      (∀ value unit, .number value unit ∈ kinds → ReadsBack value) →
      (scan (" ".intercalate (kinds.map Kind.describe))).map Token.kind = kinds) ∧
    ∀ source : String,
      (∀ value unit, .number value unit ∈ (scan source).map Token.kind →
        value.isFinite = true ∧ ReadsBack value) →
      (scan (" ".intercalate ((scan source).map fun t => t.kind.describe))).map Token.kind =
        (scan source).map Token.kind := by
  refine ⟨fun kinds => kinds_scan_describe, fun source h => ?_⟩
  obtain ⟨htokens, -, -⟩ := accounts_scan source
  have hwritable : ∀ kind ∈ (scan source).map Token.kind, kind.Writable := by
    intro kind hkind
    obtain ⟨t, ht, rfl⟩ := List.mem_map.mp hkind
    refine writable_of_spells (htokens t ht).2.2.1 fun value unit heq => ?_
    exact (h value unit (heq ▸ hkind)).1
  have hkinds := kinds_scan_describe hwritable fun value unit hm => (h value unit hm).2
  rwa [List.map_map] at hkinds

/-- Negative zero is shown with its sign, which is a token of its own. -/
example : (scan (Kind.describe (.number (-0.0) ""))).map Token.kind =
    [.operator .minus, .number 0 ""] := by decide +kernel

/-- Neighbours that would run together without a space, a unit that starts with an `e`, and a number
with a long row of zeros. -/
def neighbours : List Kind :=
  [.name "e", .operator .assign, .operator .arrow, .number 0.1 "e", .number 1e22 "%", .mark .dot,
    .keyword .bi, .name "bi2"]

/-- A text without spaces, with a grouped literal. -/
def crowded : String := "_b<=1_0.5e2Hz"

theorem scan_describe_neighbours :
    (scan (" ".intercalate (neighbours.map Kind.describe))).map Token.kind = neighbours ∧
    (scan crowded).map Token.kind = [.name "_b", .operator .backArrow, .number 1050 "Hz"] ∧
    (scan (" ".intercalate ((scan crowded).map fun t => t.kind.describe))).map Token.kind =
      (scan crowded).map Token.kind := by
  obtain ⟨hall, hsource⟩ := scan_describe
  have hkinds : (scan crowded).map Token.kind =
      [.name "_b", .operator .backArrow, .number 1050 "Hz"] := by decide +kernel
  refine ⟨hall neighbours ?_ ?_, hkinds, hsource crowded ?_⟩
  · have he : Kind.Writable (.name "e") :=
      ⟨(isWord_cons rfl rfl : IsWord ['e']), by rintro (_ | _ | _ | _) <;> decide⟩
    have hbi : Kind.Writable (.name "bi2") :=
      ⟨(isWord_cons rfl rfl : IsWord ['b', 'i', '2']), by rintro (_ | _ | _ | _) <;> decide⟩
    have htenth : Kind.Writable (.number 0.1 "e") :=
      ⟨by decide +kernel, by decide +kernel, List.all_eq_true.mp rfl⟩
    have hlarge : Kind.Writable (.number 1e22 "%") :=
      ⟨by decide +kernel, by decide +kernel, List.all_eq_true.mp rfl⟩
    simp only [neighbours, List.forall_mem_cons]
    exact ⟨he, trivial, trivial, htenth, hlarge, trivial, trivial, hbi, List.forall_mem_nil _⟩
  · intro value unit hm
    obtain ⟨rfl, -⟩ | ⟨rfl, -⟩ : (value = 0.1 ∧ unit = "e") ∨ (value = 1e22 ∧ unit = "%") := by
      simpa [neighbours] using hm
    · decide +kernel
    · decide +kernel
  · rw [hkinds]
    intro value unit hm
    obtain ⟨rfl, -⟩ : value = 1050 ∧ unit = "Hz" := by simpa using hm
    decide +kernel

end Patchbay.Token
