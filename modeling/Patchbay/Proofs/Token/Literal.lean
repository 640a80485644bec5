import Patchbay.Decimal.Reader
import Patchbay.Proofs.Json.Numbers
import Patchbay.Token.Scan

/-! Numeric literals as they are written, and the number read from one. What is scanned as a number
can always be read. -/
namespace Patchbay.Token
open Decimal

/-- How a literal is written: a digit first, then digits and underscores with an optional point and
an optional power, which has a digit too, and a unit of letters and percent signs. -/
structure Literal.Proper (l : Literal) : Prop where
  whole : ∃ d ds, l.whole = d :: ds ∧ isDigit d = true ∧ ∀ c ∈ ds, isPlace c = true
  fraction : l.fraction = [] ∨ ∃ ds, l.fraction = '.' :: ds ∧ ∀ c ∈ ds, isPlace c = true
  power : l.power = [] ∨ ∃ e sign d ds, l.power = e :: (sign ++ d :: ds) ∧ (e = 'e' ∨ e = 'E') ∧
    (sign = [] ∨ sign = ['+'] ∨ sign = ['-']) ∧ isDigit d = true ∧ ∀ c ∈ ds, isPlace c = true
  unit : ∀ c ∈ l.unit, isUnitChar c = true

/-- The literal without its unit and its underscores. -/
def Literal.plain (l : Literal) : List Char :=
  (l.whole ++ l.fraction ++ l.power).filter (· ≠ '_')

theorem prefix_append_of_drop {cs us vs : List Char} (hu : us <+: cs)
    (hv : vs <+: cs.drop us.length) : us ++ vs <+: cs := by
  obtain ⟨rest, rfl⟩ := hu
  rw [List.drop_left] at hv
  exact (List.prefix_append_right_inj us).mpr hv

theorem scanFraction_prefix (cs : List Char) : scanFraction cs <+: cs := by
  rw [scanFraction.eq_def]
  split
  · exact List.cons_prefix_cons.mpr ⟨rfl, List.takeWhile_prefix _⟩
  · exact List.nil_prefix

/-- A sign, if there is one. -/
theorem sign_cases (cs : List Char) :
    ((cs.take 1).filter fun c => c = '+' || c = '-') = [] ∨
      ∃ c rest, cs = c :: rest ∧ (c = '+' ∨ c = '-') ∧
        ((cs.take 1).filter fun c => c = '+' || c = '-') = [c] := by
  cases cs with
  | nil => exact .inl rfl
  | cons c rest =>
    by_cases hc : c = '+' ∨ c = '-'
    · exact .inr ⟨c, rest, rfl, hc, by simp [hc]⟩
    · exact .inl (by simp [hc])

theorem scanPower_prefix (cs : List Char) : scanPower cs <+: cs := by
  cases cs with
  | nil => exact List.nil_prefix
  | cons e rest =>
    simp only [scanPower]
    split
    · rw [List.cons_append]
      refine List.cons_prefix_cons.mpr ⟨rfl, prefix_append_of_drop ?_ (List.takeWhile_prefix _)⟩
      obtain h | ⟨c, tail, rfl, -, h⟩ := sign_cases rest
      · rw [h]
        exact List.nil_prefix
      · rw [h]
        exact List.cons_prefix_cons.mpr ⟨rfl, List.nil_prefix⟩
    · exact List.nil_prefix

theorem scanLiteral_prefix (cs : List Char) : (scanLiteral cs).text <+: cs := by
  refine prefix_append_of_drop (prefix_append_of_drop (prefix_append_of_drop ?_ ?_) ?_) ?_
  · exact List.takeWhile_prefix _
  · exact scanFraction_prefix _
  · rw [List.length_append, ← List.drop_drop]
    exact scanPower_prefix _
  · rw [List.length_append, List.length_append, ← List.drop_drop, ← List.drop_drop]
    exact List.takeWhile_prefix _

private theorem of_mem_takeWhile {p : Char → Bool} {c : Char} {cs : List Char}
    (h : c ∈ cs.takeWhile p) : p c = true := List.all_eq_true.mp List.all_takeWhile c h

theorem scanLiteral_proper {c : Char} (hc : isDigit c = true) (rest : List Char) :
    (scanLiteral (c :: rest)).Proper := by
  refine ⟨⟨c, rest.takeWhile isPlace, ?_, hc, fun d hd => of_mem_takeWhile hd⟩, ?_, ?_,
    fun d hd => of_mem_takeWhile hd⟩
  · exact List.takeWhile_cons_of_pos (by simp [isPlace, hc])
  · simp only [scanLiteral]
    generalize List.drop _ (c :: rest) = after
    rw [scanFraction.eq_def]
    split
    · exact .inr ⟨_, rfl, fun d hd => of_mem_takeWhile hd⟩
    · exact .inl rfl
  · simp only [scanLiteral]
    generalize List.drop _ (List.drop _ (c :: rest)) = after
    cases after with
    | nil => exact .inl rfl
    | cons e after =>
      simp only [scanPower]
      split
      · next hpower =>
        obtain ⟨he, hdigit⟩ := Bool.and_eq_true_iff.mp hpower
        obtain ⟨sign, hsign⟩ : ∃ sign, sign = (after.take 1).filter fun c => c = '+' || c = '-' :=
          ⟨_, rfl⟩
        rw [← hsign] at hdigit ⊢
        have hplaces : ∀ c ∈ (after.drop sign.length).takeWhile isPlace, isPlace c = true :=
          fun c hc => of_mem_takeWhile hc
        generalize (after.drop sign.length).takeWhile isPlace = digits at hdigit hplaces ⊢
        cases digits with
        | nil => cases hdigit
        | cons d ds =>
        refine .inr ⟨e, sign, d, ds, rfl, by simpa using he, ?_, hdigit,
          (List.forall_mem_cons.mp hplaces).2⟩
        obtain h | ⟨c, rest, -, rfl | rfl, h⟩ := sign_cases after
        · exact .inl (hsign.trans h)
        · exact .inr (.inl (hsign.trans h))
        · exact .inr (.inr (hsign.trans h))
      · exact .inl rfl

theorem valueOf_filter (cs : List Char) : valueOf (cs.filter isDigit) = valueOf cs := by
  rw [valueOf, valueOf, List.foldl_filter]
  congr 1
  funext n c
  split
  · rfl
  · rfl

/-- Only the digits count. -/
theorem ofParts_congr {whole whole' fraction fraction' : List Char} (power : Int)
    (hw : whole.filter isDigit = whole'.filter isDigit)
    (hf : fraction.filter isDigit = fraction'.filter isDigit) :
    ofParts whole fraction power = ofParts whole' fraction' power := by
  rw [ofParts, ofParts, digitCount, digitCount, hf, ← valueOf_filter, ← valueOf_filter (_ ++ _),
    List.filter_append, List.filter_append, hw, hf]

private theorem filter_places {cs : List Char} (h : ∀ c ∈ cs, isPlace c = true) :
    cs.filter (· ≠ '_') = cs.filter isDigit := by
  refine List.filter_congr fun c hc => ?_
  have hplace := h c hc
  rw [isPlace, Bool.or_eq_true, decide_eq_true_eq] at hplace
  obtain hdigit | rfl := hplace
  · rw [hdigit, decide_eq_true_eq]
    rintro rfl
    cases hdigit
  · rfl

private theorem powerValue_eq_valueOf {cs : List Char} (h : (cs.drop 1).head? ≠ some '-') :
    powerValue cs = valueOf cs := by
  rw [powerValue.eq_def]
  split
  · exact absurd rfl h
  · rfl

/-- Underscores in a power count nothing. -/
theorem powerValue_filter {e d : Char} {sign ds : List Char}
    (hs : sign = [] ∨ sign = ['+'] ∨ sign = ['-']) (hd : isDigit d = true) :
    powerValue (e :: (sign ++ d :: ds.filter isDigit)) = powerValue (e :: (sign ++ d :: ds)) := by
  have hvalue : ∀ front : List Char,
      valueOf (front ++ d :: ds.filter isDigit) = valueOf (front ++ d :: ds) := by
    intro front
    rw [← valueOf_filter (_ ++ _ :: _), ← valueOf_filter (_ ++ _ :: ds), List.filter_append,
      List.filter_append, List.filter_cons_of_pos hd, List.filter_cons_of_pos hd, List.filter_filter]
    simp only [Bool.and_self]
  obtain rfl | rfl | rfl := hs
  · have hminus : d ≠ '-' := by
      rintro rfl
      cases hd
    rw [powerValue_eq_valueOf (by simpa using hminus), powerValue_eq_valueOf (by simpa using hminus)]
    exact congrArg Nat.cast (hvalue [e])
  · rw [powerValue_eq_valueOf (by simp), powerValue_eq_valueOf (by simp)]
    exact congrArg Nat.cast (hvalue [e, '+'])
  · exact congrArg (fun n : Nat => -(n : Int)) (hvalue [])

theorem isPower_of_digit {e d : Char} {sign ds : List Char} (he : e = 'e' ∨ e = 'E')
    (hs : sign = [] ∨ sign = ['+'] ∨ sign = ['-']) (hd : isDigit d = true)
    (hds : ∀ c ∈ ds, isDigit c = true) : isPower (e :: (sign ++ d :: ds)) = true := by
  have hsign : (d = '+' ∨ d = '-') → False := by
    rintro (rfl | rfl) <;> cases hd
  obtain rfl | rfl | rfl := hs
  · simp_all [isPower]
  · simp_all [isPower]
  · simp_all [isPower]

theorem head?_of_isPower {power : List Char} (h : power = [] ∨ isPower power = true) :
    ∀ c, power.head? = some c → isDigit c = false ∧ c ≠ '.' := by
  rintro c hc
  cases power with
  | nil => cases hc
  | cons e rest =>
    obtain rfl := Option.some.inj hc
    obtain h | h := h
    · cases h
    · simp only [isPower, Bool.and_eq_true, Bool.or_eq_true, decide_eq_true_eq] at h
      obtain rfl | rfl := h.1.1
      · decide
      · decide

/-- A number in three parts. -/
theorem magnitude?_append {whole fraction power : List Char} (hw : Digits whole)
    (hf : fraction = [] ∨ ∃ ds, fraction = '.' :: ds ∧ ∀ c ∈ ds, isDigit c = true)
    (hp : power = [] ∨ isPower power = true) :
    magnitude? (whole ++ (fraction ++ power)) =
      some (ofParts whole fraction (powerValue power)) := by
  have hhead := head?_of_isPower hp
  have hpower : (power.isEmpty || isPower power) = true := by
    rw [Bool.or_eq_true, List.isEmpty_iff]
    exact hp
  have hne : whole.isEmpty = false := by
    rw [Bool.eq_false_iff, ne_eq, List.isEmpty_iff]
    exact hw.1
  obtain rfl | ⟨ds, rfl, hds⟩ := hf
  · have hrest : (whole ++ ([] ++ power)).takeWhile isDigit = whole :=
      Json.Number.takeWhile_digits hw.2 fun c hc => (hhead c hc).1
    have hpoint : power.head? ≠ some '.' := fun h => (hhead '.' h).2 rfl
    rw [magnitude?, hrest, List.drop_left]
    simp [hpoint, hne, hpower]
  · have hrest : (whole ++ ('.' :: ds ++ power)).takeWhile isDigit = whole :=
      Json.Number.takeWhile_digits hw.2 fun c hc => by cases hc; rfl
    have hfraction : (ds ++ power).takeWhile isDigit = ds :=
      Json.Number.takeWhile_digits hds fun c hc => (hhead c hc).1
    have hparts : ofParts whole ds (powerValue power) =
        ofParts whole ('.' :: ds) (powerValue power) := ofParts_congr _ rfl rfl
    rw [magnitude?, hrest, List.drop_left]
    simp [hne, hpower, hfraction, hparts]

/-- Words for numbers do not start with a digit. -/
theorem unsigned?_of_digit {d : Char} (hd : isDigit d = true) (rest : List Char) :
    unsigned? (d :: rest) = (magnitude? (d :: rest)).map toFloat := by
  rw [isDigit, Bool.and_eq_true, decide_eq_true_eq, decide_eq_true_eq] at hd
  have hlower : d.toLower = d := by
    rw [Char.toLower, dif_neg]
    exact fun h => absurd (UInt32.le_trans h.1 hd.2) (by decide)
  have hword : ∀ first letters, String.ofList ((d :: rest).map Char.toLower) =
      String.ofList (first :: letters) → d = first := by
    intro first letters h
    rw [List.map_cons, hlower, String.ofList_inj] at h
    exact (List.cons.inj h).1
  have hletter : ∀ letter : Char, '9' < letter → d ≠ letter := by
    rintro letter hlt rfl
    exact absurd hd.2 (by simpa using hlt)
  have hinf : String.ofList ((d :: rest).map Char.toLower) ≠ "inf" :=
    fun h => hletter 'i' (by decide) (hword 'i' ['n', 'f'] h)
  have hinfinity : String.ofList ((d :: rest).map Char.toLower) ≠ "infinity" :=
    fun h => hletter 'i' (by decide) (hword 'i' ['n', 'f', 'i', 'n', 'i', 't', 'y'] h)
  have hnan : String.ofList ((d :: rest).map Char.toLower) ≠ "nan" :=
    fun h => hletter 'n' (by decide) (hword 'n' ['a', 'n'] h)
  simp only [unsigned?, hinf, hinfinity, hnan, decide_false, Bool.or_self, Bool.false_eq_true,
    if_false]

private theorem isDigit_of_mem_filter {cs : List Char} : ∀ c ∈ cs.filter isDigit, isDigit c = true :=
  fun _ hc => (List.mem_filter.mp hc).2

private theorem filter_isDigit_idem (cs : List Char) :
    (cs.filter isDigit).filter isDigit = cs.filter isDigit :=
  List.filter_eq_self.mpr isDigit_of_mem_filter

namespace Literal.Proper
variable {l : Literal}

theorem plain_whole (h : l.Proper) :
    l.whole.filter (· ≠ '_') = l.whole.filter isDigit ∧ Digits (l.whole.filter isDigit) := by
  obtain ⟨d, ds, hwhole, hd, hds⟩ := h.whole
  have hplace : isPlace d = true := by simp [isPlace, hd]
  refine ⟨?_, ?_, isDigit_of_mem_filter⟩
  · exact hwhole ▸ filter_places (List.forall_mem_cons.mpr ⟨hplace, hds⟩)
  · rw [hwhole, List.filter_cons_of_pos hd]
    exact List.cons_ne_nil _ _

theorem plain_fraction (h : l.Proper) : ∃ fraction, l.fraction.filter (· ≠ '_') = fraction ∧
    (fraction = [] ∨ ∃ ds, fraction = '.' :: ds ∧ ∀ c ∈ ds, isDigit c = true) ∧
    fraction.filter isDigit = l.fraction.filter isDigit := by
  obtain hnone | ⟨ds, hds, hplaces⟩ := h.fraction
  · exact ⟨[], by rw [hnone]; rfl, .inl rfl, by rw [hnone]⟩
  · refine ⟨'.' :: ds.filter isDigit, ?_, .inr ⟨_, rfl, isDigit_of_mem_filter⟩, ?_⟩
    · rw [hds, List.filter_cons_of_pos (by decide), filter_places hplaces]
    · rw [hds, List.filter_cons_of_neg (by decide), List.filter_cons_of_neg (by decide),
        filter_isDigit_idem]

theorem plain_power (h : l.Proper) : ∃ power, l.power.filter (· ≠ '_') = power ∧
    (power = [] ∨ isPower power = true) ∧ powerValue power = powerValue l.power := by
  obtain hnone | ⟨e, sign, d, ds, hpower, he, hs, hd, hds⟩ := h.power
  · exact ⟨[], by rw [hnone]; rfl, .inl rfl, by rw [hnone]⟩
  · have hplace : isPlace d = true := by simp [isPlace, hd]
    have hdigits : (d :: ds).filter (· ≠ '_') = d :: ds.filter isDigit := by
      rw [filter_places (List.forall_mem_cons.mpr ⟨hplace, hds⟩), List.filter_cons_of_pos hd]
    have hfront : (e :: sign).filter (· ≠ '_') = e :: sign := by
      obtain rfl | rfl := he <;> obtain rfl | rfl | rfl := hs <;> rfl
    refine ⟨e :: (sign ++ d :: ds.filter isDigit), ?_,
      .inr (isPower_of_digit he hs hd isDigit_of_mem_filter), ?_⟩
    · rw [hpower, ← List.cons_append, List.filter_append, hfront, hdigits, List.cons_append]
    · rw [hpower, powerValue_filter hs hd]

/-- What is written as a literal is a number, and the one that was scanned. -/
theorem value?_plain (h : l.Proper) : value? l.plain = some l.value := by
  obtain ⟨hwhole, hdigits⟩ := h.plain_whole
  obtain ⟨fraction, hfraction, hpoint, hsame⟩ := h.plain_fraction
  obtain ⟨power, hpower, hispower, hvalue⟩ := h.plain_power
  have hplain : l.plain = l.whole.filter isDigit ++ (fraction ++ power) := by
    rw [Literal.plain, List.filter_append, List.filter_append, hwhole, hfraction, hpower,
      List.append_assoc]
  have hmagnitude : magnitude? l.plain = some (ofParts l.whole l.fraction (powerValue l.power)) := by
    rw [hplain, magnitude?_append hdigits hpoint hispower, hvalue,
      ofParts_congr _ (filter_isDigit_idem l.whole) hsame]
  obtain ⟨d, rest, hfront⟩ := List.exists_cons_of_ne_nil hdigits.1
  have hd : isDigit d = true := hdigits.2 d (hfront ▸ List.mem_cons_self)
  rw [hplain, hfront, List.cons_append] at hmagnitude ⊢
  have hunsigned : value? (d :: (rest ++ (fraction ++ power))) =
      unsigned? (d :: (rest ++ (fraction ++ power))) := by
    rw [value?.eq_def]
    split
    · next heq =>
      obtain ⟨rfl, -⟩ := List.cons.inj heq
      cases hd
    · next heq =>
      obtain ⟨rfl, -⟩ := List.cons.inj heq
      cases hd
    · rfl
  rw [hunsigned, unsigned?_of_digit hd, hmagnitude]
  rfl

end Literal.Proper
end Patchbay.Token
