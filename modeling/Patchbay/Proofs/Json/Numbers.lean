import Patchbay.Json.Number
import Patchbay.Json.Reader
import Patchbay.Proofs.Decimal.Finite

/-! Numbers in JSON text: which written parts make a number, and that natural and binary64 numbers
are written with such parts. -/
namespace Patchbay.Decimal

/-- At least one digit, and nothing else. -/
def Digits (cs : List Char) : Prop := cs ≠ [] ∧ ∀ c ∈ cs, isDigit c = true

theorem digits_digitsOf (n : Nat) : Digits (digitsOf n) := by
  refine ⟨Nat.toDigits_ne_nil, fun c hc => ?_⟩
  have hdigit := Nat.isDigit_of_mem_toDigits (by decide) (by decide) hc
  rw [Char.isDigit, Bool.and_eq_true, decide_eq_true_eq, decide_eq_true_eq] at hdigit
  rw [isDigit, Bool.and_eq_true, decide_eq_true_eq, decide_eq_true_eq]
  exact hdigit

theorem digitsOf_zero : digitsOf 0 = ['0'] := Nat.toDigits_zero 10

/-- No zero stands in front. -/
theorem head?_digitsOf {n : Nat} (h : n ≠ 0) : (digitsOf n).head? ≠ some '0' := by
  induction n using Nat.strongRecOn with
  | ind n ih =>
    by_cases hlt : n < 10
    · rw [digitsOf, Nat.toDigits_of_lt_base hlt, List.head?_cons, ne_eq, Option.some.injEq,
        Nat.digitChar_eq_zero]
      exact h
    · have hfront := ih (n / 10) (by omega) (by omega)
      obtain ⟨c, rest, hcs⟩ := List.exists_cons_of_ne_nil (digits_digitsOf (n / 10)).1
      rw [hcs] at hfront
      rw [digitsOf] at hcs ⊢
      rw [Nat.toDigits_of_base_le (by decide) (Nat.le_of_not_lt hlt), hcs]
      exact hfront

theorem valueOf_append_singleton (cs : List Char) {c : Char} (h : isDigit c = true) :
    valueOf (cs ++ [c]) = 10 * valueOf cs + (c.toNat - '0'.toNat) := by
  simp [valueOf, h]

theorem valueOf_digitsOf (n : Nat) : valueOf (digitsOf n) = n := by
  have last : ∀ d, d < 10 → isDigit d.digitChar = true ∧ d.digitChar.toNat - '0'.toNat = d := by
    decide
  induction n using Nat.strongRecOn with
  | ind n ih =>
    by_cases hlt : n < 10
    · obtain ⟨hdigit, hvalue⟩ := last n hlt
      rw [digitsOf, Nat.toDigits_of_lt_base hlt]
      exact (valueOf_append_singleton [] hdigit).trans (by rw [hvalue]; exact Nat.zero_add n)
    · obtain ⟨hdigit, hvalue⟩ := last (n % 10) (by omega)
      have hfront := ih (n / 10) (by omega)
      rw [digitsOf] at hfront ⊢
      rw [Nat.toDigits_of_base_le (by decide) (Nat.le_of_not_lt hlt),
        valueOf_append_singleton _ hdigit, hfront, hvalue]
      omega

/-- A run of zeros and points counts nothing. -/
theorem valueOf_zeros {cs : List Char} (h : ∀ c ∈ cs, c = '0' ∨ c = '.') : valueOf cs = 0 := by
  have fold : ∀ cs : List Char, (∀ c ∈ cs, c = '0' ∨ c = '.') →
      cs.foldl (fun n c => if isDigit c then 10 * n + (c.toNat - '0'.toNat) else n) 0 = 0 := by
    intro cs
    induction cs with
    | nil => exact fun _ => rfl
    | cons c rest ih =>
      intro h
      obtain ⟨hc, hrest⟩ := List.forall_mem_cons.mp h
      rw [List.foldl_cons]
      rcases hc with rfl | rfl <;> exact ih hrest
  exact fold cs h

end Patchbay.Decimal

namespace Patchbay.Json.Number
open Decimal

/-- The parts make a number: digits without a leading zero, then perhaps a point with digits and a
power with digits. -/
structure Proper (n : Number) : Prop where
  whole : n.whole = ['0'] ∨ Digits n.whole ∧ n.whole.head? ≠ some '0'
  fraction : n.fraction = [] ∨ ∃ digits, Digits digits ∧ n.fraction = '.' :: digits
  power : n.power = [] ∨ ∃ letter sign digits, (letter = 'e' ∨ letter = 'E') ∧
    (sign = [] ∨ sign = ['+'] ∨ sign = ['-']) ∧ Digits digits ∧
      n.power = letter :: (sign ++ digits)

/-- What may stand behind a number: nothing that could be a part of it. -/
def Ends (rest : List Char) : Prop :=
  ∀ c, rest.head? = some c → isDigit c = false ∧ c ≠ '.' ∧ c ≠ 'e' ∧ c ≠ 'E'

/-- What is taken while a test holds, in front of what fails it. -/
theorem takeWhile_front {p : Char → Bool} {front rest : List Char} (h : ∀ c ∈ front, p c = true)
    (hr : ∀ c, rest.head? = some c → p c = false) : (front ++ rest).takeWhile p = front := by
  have hnone : rest.takeWhile p = [] := by
    cases rest with
    | nil => rfl
    | cons c rest =>
      rw [List.takeWhile_cons_of_neg]
      simp [hr c rfl]
  rw [List.takeWhile_append_of_pos h, hnone, List.append_nil]

theorem takeWhile_digits {digits rest : List Char} (h : ∀ c ∈ digits, isDigit c = true)
    (hr : ∀ c, rest.head? = some c → isDigit c = false) :
    (digits ++ rest).takeWhile isDigit = digits :=
  takeWhile_front h hr

theorem wholePart?_append {whole rest : List Char}
    (h : whole = ['0'] ∨ Digits whole ∧ whole.head? ≠ some '0')
    (hr : ∀ c, rest.head? = some c → isDigit c = false) :
    wholePart? (whole ++ rest) = some whole := by
  rcases h with rfl | ⟨⟨hne, hdigits⟩, hhead⟩
  · rfl
  · cases whole with
    | nil => exact absurd rfl hne
    | cons c digits =>
      obtain ⟨hc, hdigits⟩ := List.forall_mem_cons.mp hdigits
      have hzero : c ≠ '0' := fun heq => hhead (congrArg some heq)
      rw [List.cons_append, wholePart?.eq_def]
      split
      · next heq => exact absurd (List.cons.inj heq).1 hzero
      · next heq =>
        obtain ⟨rfl, rfl⟩ := List.cons.inj heq
        rw [if_pos hc, takeWhile_digits hdigits hr]
      · next heq => cases heq

theorem fractionPart?_append {fraction rest : List Char}
    (h : fraction = [] ∨ ∃ digits, Digits digits ∧ fraction = '.' :: digits)
    (hr : ∀ c, rest.head? = some c → isDigit c = false ∧ c ≠ '.') :
    fractionPart? (fraction ++ rest) = some fraction := by
  rcases h with rfl | ⟨digits, ⟨hne, hdigits⟩, rfl⟩
  · rw [List.nil_append, fractionPart?.eq_def]
    split
    · exact absurd rfl (hr _ rfl).2
    · rfl
  · rw [List.cons_append, fractionPart?.eq_def]
    simp only
    rw [takeWhile_digits hdigits fun c hc => (hr c hc).1]
    cases digits with
    | nil => exact absurd rfl hne
    | cons c digits => rfl

theorem powerPart?_append {power rest : List Char}
    (h : power = [] ∨ ∃ letter sign digits, (letter = 'e' ∨ letter = 'E') ∧
      (sign = [] ∨ sign = ['+'] ∨ sign = ['-']) ∧ Digits digits ∧
        power = letter :: (sign ++ digits)) (hr : Ends rest) :
    powerPart? (power ++ rest) = some power := by
  rcases h with rfl | ⟨letter, sign, digits, hletter, hsign, ⟨hne, hdigits⟩, rfl⟩
  · cases rest with
    | nil => rfl
    | cons c rest =>
      obtain ⟨_, _, he, hE⟩ := hr c rfl
      simp [powerPart?, he, hE]
  · have hread := takeWhile_digits hdigits fun c hc => (hr c hc).1
    have hkept : ((sign ++ (digits ++ rest)).take 1).filter (fun c => c = '+' || c = '-') =
        sign := by
      rcases hsign with rfl | rfl | rfl
      · cases digits with
        | nil => exact absurd rfl hne
        | cons c digits =>
          have hc := hdigits c List.mem_cons_self
          have hplus : c ≠ '+' := by
            rintro rfl
            cases hc
          have hminus : c ≠ '-' := by
            rintro rfl
            cases hc
          simp [hplus, hminus]
      · rfl
      · rfl
    have hcond : (decide (letter = 'e') || decide (letter = 'E')) = true := by simpa using hletter
    rw [List.cons_append, List.append_assoc, powerPart?]
    simp only [hcond, if_true, hkept, List.drop_left, hread]
    cases digits with
    | nil => exact absurd rfl hne
    | cons c digits => rfl

theorem Proper.exists_whole {n : Number} (h : n.Proper) :
    ∃ c more, n.whole = c :: more ∧ isDigit c = true := by
  rcases h.whole with hwhole | ⟨⟨hne, hdigits⟩, _⟩
  · exact ⟨'0', [], hwhole, rfl⟩
  · obtain ⟨c, more, hcs⟩ := List.exists_cons_of_ne_nil hne
    exact ⟨c, more, hcs, hdigits c (by simp [hcs])⟩

theorem Proper.exists_text {n : Number} (h : n.Proper) :
    ∃ c more, n.text = c :: more ∧ (c = '-' ∨ isDigit c = true) := by
  obtain ⟨c, more, hwhole, hc⟩ := h.exists_whole
  rw [text, hwhole]
  cases n.negative with
  | false => exact ⟨c, _, rfl, .inr hc⟩
  | true => exact ⟨'-', _, rfl, .inl rfl⟩

/-- A number is read up to its end. -/
theorem number?_text {n : Number} (h : n.Proper) {rest : List Char} (hr : Ends rest) :
    number? (n.text ++ rest) = some n := by
  have hpower := powerPart?_append h.power hr
  have hbehind : ∀ c, (n.power ++ rest).head? = some c → isDigit c = false ∧ c ≠ '.' := by
    intro c hc
    rcases h.power with hp | ⟨letter, sign, digits, hletter, _, _, hp⟩
    · rw [hp] at hc
      exact ⟨(hr c hc).1, (hr c hc).2.1⟩
    · rw [hp] at hc
      cases hc
      rcases hletter with rfl | rfl <;> decide
  have hfraction := fractionPart?_append h.fraction hbehind
  have hafter : ∀ c, (n.fraction ++ (n.power ++ rest)).head? = some c → isDigit c = false := by
    intro c hc
    rcases h.fraction with hf | ⟨digits, _, hf⟩
    · rw [hf] at hc
      exact (hbehind c hc).1
    · rw [hf] at hc
      cases hc
      rfl
  have hwhole := wholePart?_append h.whole hafter
  obtain ⟨first, more, hmore, hdigit⟩ := h.exists_whole
  have hsigned : ∀ negative : Bool, n.negative = negative →
      ((n.text ++ rest).head? = some '-' ↔ negative = true) ∧
      (n.text ++ rest).drop (if negative then 1 else 0) =
        n.whole ++ (n.fraction ++ (n.power ++ rest)) := by
    rintro (_ | _) hn
    · have hminus : first ≠ '-' := by
        rintro rfl
        cases hdigit
      simp [text, hn, hmore, hminus]
    · simp [text, hn]
  obtain ⟨hhead, hdrop⟩ := hsigned n.negative rfl
  rw [number?]
  simp only [hhead, Bool.decide_eq_true, hdrop, hwhole, List.drop_left, hfraction, hpower]

theorem proper_ofNat (n : Nat) : (Number.ofNat n).Proper := by
  refine ⟨?_, .inl rfl, .inl rfl⟩
  by_cases hn : n = 0
  · exact .inl (hn ▸ digitsOf_zero)
  · exact .inr ⟨digits_digitsOf n, head?_digitsOf hn⟩

theorem natural?_ofNat {n : Nat} (h : n < UInt64.size) : (Number.ofNat n).natural? = some n := by
  have hvalue : valueOf (Number.ofNat n).whole = n := valueOf_digitsOf n
  rw [natural?, if_neg (by simp [Number.ofNat])]
  simp only [hvalue]
  exact if_pos h

theorem float?_ofNat {n : Nat} (h : n < UInt64.size) :
    (Number.ofNat n).float?.isSome = true := by
  have hvalue : valueOf (Nat.toDigits 10 n) = n := valueOf_digitsOf n
  have hdecimal : (Number.ofNat n).decimal = ⟨n, 0⟩ := by
    rw [decimal, Number.ofNat, ofParts, List.append_nil, hvalue]
    rfl
  have hinf : (Decimal.toFloat ⟨n, 0⟩).isInf = false := by
    rw [toFloat]
    simp only
    split
    · decide +kernel
    · rw [if_neg (by decide), if_neg (by omega)]
      exact (isFinite_iff.mp (isFinite_natural h)).2
  rw [float?, hdecimal]
  simp [hinf]

/-- What is read is finite. -/
theorem isFinite_of_float? {n : Number} {x : Float} (h : n.float? = some x) :
    x.isFinite = true := by
  have hnan : n.decimal.toFloat.isNaN = false := by
    rw [toFloat]
    split
    · decide +kernel
    · split
      · decide +kernel
      · split
        · decide +kernel
        · exact isNaN_ofScientific _ _ _
  rw [float?] at h
  split at h
  · cases h
  · next hinf =>
    have hfinite := isFinite_iff.mpr ⟨hnan, Bool.eq_false_iff.mpr hinf⟩
    split at h
    · cases h
      exact isFinite_neg hfinite
    · cases h
      exact hfinite

/-- What is written for a number reads back to it, if it is finite. -/
def ReadsBack (x : Float) : Prop := x.isFinite = true → (Number.ofFloat x).float? = some x

instance (x : Float) : Decidable (ReadsBack x) := inferInstanceAs (Decidable (_ → _))

/-- A written magnitude with a sign. -/
def ofWritten (negative : Bool) (w : Written) : Number := ⟨negative, w.whole, w.fraction, w.power⟩

theorem isDigit_replicate (count : Nat) : ∀ c ∈ List.replicate count '0', isDigit c = true := by
  intro c hc
  rw [List.eq_of_mem_replicate hc]
  rfl

theorem proper_writePositional {d : Decimal} (h : d.digits ≠ 0) (negative : Bool) :
    (ofWritten negative (writePositional true d)).Proper := by
  have hdigits := digits_digitsOf d.digits
  have hhead := head?_digitsOf h
  rw [writePositional]
  generalize digitsOf d.digits = ds at hdigits hhead
  obtain ⟨first, more, rfl⟩ := List.exists_cons_of_ne_nil hdigits.1
  split
  · refine ⟨.inr ⟨⟨List.cons_ne_nil _ _, ?_⟩, hhead⟩, .inr ⟨['0'], ⟨?_, ?_⟩, rfl⟩, .inl rfl⟩
    · exact List.forall_mem_append.mpr ⟨hdigits.2, isDigit_replicate _⟩
    · exact List.cons_ne_nil _ _
    · exact isDigit_replicate 1
  · next hexponent =>
    have hpos : 0 < (-d.exponent).toNat := by omega
    generalize (-d.exponent).toNat = places at hpos
    split
    · next hplaces =>
      obtain ⟨k, hk⟩ := Nat.exists_eq_add_of_lt hplaces
      have hfront : (first :: more).length - places = k + 1 := by omega
      have hback : (first :: more).drop (k + 1) ≠ [] := by
        rw [ne_eq, List.drop_eq_nil_iff]
        omega
      rw [hfront]
      refine ⟨.inr ⟨⟨List.cons_ne_nil _ _, ?_⟩, hhead⟩, .inr ⟨_, ⟨hback, ?_⟩, rfl⟩, .inl rfl⟩
      · exact fun c hc => hdigits.2 c (List.mem_of_mem_take hc)
      · exact fun c hc => hdigits.2 c (List.mem_of_mem_drop hc)
    · refine ⟨.inl rfl, .inr ⟨_, ⟨by simp, ?_⟩, rfl⟩, .inl rfl⟩
      exact List.forall_mem_append.mpr ⟨isDigit_replicate _, hdigits.2⟩

theorem proper_writeScientific (d : Decimal) (power : Int) (negative : Bool) :
    (ofWritten negative (writeScientific d power)).Proper := by
  have hdigits := digits_digitsOf d.digits
  rw [writeScientific]
  generalize digitsOf d.digits = ds at hdigits
  obtain ⟨first, more, rfl⟩ := List.exists_cons_of_ne_nil hdigits.1
  obtain ⟨hfirst, hmore⟩ := List.forall_mem_cons.mp hdigits.2
  refine ⟨?_, ?_, .inr ⟨'e', [if power < 0 then '-' else '+'], digitsOf power.natAbs, .inl rfl, ?_,
    digits_digitsOf _, rfl⟩⟩
  · by_cases hzero : first = '0'
    · exact .inl (by rw [hzero]; rfl)
    · refine .inr ⟨⟨List.cons_ne_nil _ _, ?_⟩, ?_⟩
      · simpa [ofWritten] using hfirst
      · simpa [ofWritten] using hzero
  · cases more with
    | nil => exact .inl rfl
    | cons second more => exact .inr ⟨second :: more, ⟨List.cons_ne_nil _ _, hmore⟩, rfl⟩
  · split
    · exact .inr (.inr rfl)
    · exact .inr (.inl rfl)

/-- Digits of zero stand for zero in every layout. -/
theorem digits_written {d : Decimal} (h : d.digits = 0) (negative : Bool) (power : Int) :
    (ofWritten negative (writePositional true d)).decimal.digits = 0 ∧
      (ofWritten negative (writeScientific d power)).decimal.digits = 0 := by
  have hzeros : ∀ count, ∀ c ∈ List.replicate count '0', c = '0' ∨ c = '.' := fun count c hc =>
    .inl (List.eq_of_mem_replicate hc)
  have hzero : ∀ c ∈ ['0'], c = '0' ∨ c = '.' := by simp
  have hpoint : ∀ {cs : List Char}, (∀ c ∈ cs, c = '0' ∨ c = '.') →
      ∀ c ∈ '.' :: cs, c = '0' ∨ c = '.' := fun hcs => List.forall_mem_cons.mpr ⟨.inr rfl, hcs⟩
  constructor
  · rw [writePositional, h, digitsOf_zero]
    refine valueOf_zeros (List.forall_mem_append.mpr ?_)
    split
    · exact ⟨List.forall_mem_append.mpr ⟨hzero, hzeros _⟩, hpoint hzero⟩
    · split
      · exact ⟨fun c hc => hzero c (List.mem_of_mem_take hc),
          hpoint fun c hc => hzero c (List.mem_of_mem_drop hc)⟩
      · exact ⟨hzero, hpoint (List.forall_mem_append.mpr ⟨hzeros _, hzero⟩)⟩
  · rw [writeScientific, h, digitsOf_zero]
    exact valueOf_zeros hzero

/-- Zero digits make a zero. -/
theorem float?_of_digits_eq_zero {n : Number} (h : n.decimal.digits = 0) {x : Float}
    (hx : n.float? = some x) : (x == 0.0) = true := by
  have hzero : n.decimal.toFloat = 0.0 := by rw [toFloat, if_pos h]
  rw [float?, hzero, if_neg (by decide +kernel)] at hx
  cases hx
  cases n.negative <;> decide +kernel

/-- What is written for a number that reads back is a number. -/
theorem proper_ofFloat {x : Float} (hfinite : x.isFinite = true) (h : ReadsBack x) :
    (Number.ofFloat x).Proper := by
  have hread := h hfinite
  have hwritten : Number.ofFloat x = ofWritten (isNegative x) (numberLayout.write x) := rfl
  rw [hwritten] at hread ⊢
  rw [Layout.write] at hread ⊢
  split
  · exact ⟨.inl rfl, .inr ⟨['0'], ⟨List.cons_ne_nil _ _, isDigit_replicate 1⟩, rfl⟩, .inl rfl⟩
  · next hx =>
    rw [if_neg hx] at hread
    simp only at hread ⊢
    generalize shortest numberLayout.tie (Binary.ofFloat x) = d at hread ⊢
    generalize d.exponent + (digitsOf d.digits).length - 1 = power at hread ⊢
    have hdigits : d.digits ≠ 0 := by
      intro hzero
      obtain ⟨hpositional, hscientific⟩ := digits_written hzero (isNegative x) power
      split at hread
      · exact hx (float?_of_digits_eq_zero hpositional hread)
      · exact hx (float?_of_digits_eq_zero hscientific hread)
    split
    · exact proper_writePositional hdigits _
    · exact proper_writeScientific d power _

end Patchbay.Json.Number
