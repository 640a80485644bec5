import Patchbay.Proofs.Program.Parser

/-! Operators by how strongly they bind. The readers of sums, products and factors are one reader of
operands that are joined by operators of a least strength. -/
namespace Patchbay.Program
variable {α β γ : Type} {ts : List Token}

namespace Step

theorem eq_of_parts {s t : Step ts α} (hresult : s.result = t.result)
    (hfaults : s.faults = t.faults) (hrest : s.rest = t.rest) : s = t := by
  obtain ⟨result, faults, rest, le⟩ := s
  subst hresult hfaults hrest
  rfl

theorem andThen_congr {s : Step ts α}
    {f g : α → (rest : List Token) → rest.length ≤ ts.length → Step rest β}
    (h : ∀ a, s.result = .ok a → f a s.rest s.le = g a s.rest s.le) :
    s.andThen f = s.andThen g := by
  obtain ⟨result, faults, rest, le⟩ := s
  cases result with
  | error span => rfl
  | ok a =>
    have ha := h a rfl
    dsimp only at ha
    simp only [andThen, either, ha]

theorem andThen_map (s : Step ts α)
    (f : α → (rest : List Token) → rest.length ≤ ts.length → Step rest β) (g : β → γ) :
    (s.andThen f).map g = s.andThen fun a rest le => (f a rest le).map g := by
  obtain ⟨result, faults, rest, le⟩ := s
  cases result with
  | ok a => rfl
  | error span => rfl

theorem map_map (s : Step ts α) (f : α → β) (g : β → γ) : (s.map f).map g = s.map (g ∘ f) := by
  obtain ⟨result, faults, rest, le⟩ := s
  cases result with
  | ok a => rfl
  | error span => rfl

theorem done_andThen (a : α) (f : α → (rest : List Token) → rest.length ≤ ts.length → Step rest β) :
    (done a : Step ts α).andThen f = f a ts (Nat.le_refl _) := rfl

theorem andThen_done (s : Step ts α) : (s.andThen fun a _ _ => done a) = s := by
  obtain ⟨result, faults, rest, le⟩ := s
  cases result with
  | ok a => simp only [andThen, either, done, List.append_nil]
  | error span => simp only [andThen, either, failed, List.append_nil]

theorem map_andThen (s : Step ts α) (f : α → β)
    (g : β → (rest : List Token) → rest.length ≤ ts.length → Step rest γ) :
    (s.map f).andThen g = s.andThen fun a rest le => g (f a) rest le := by
  obtain ⟨result, faults, rest, le⟩ := s
  cases result with
  | ok a => rfl
  | error span => rfl

theorem andThen_assoc (s : Step ts α)
    (f : α → (rest : List Token) → rest.length ≤ ts.length → Step rest β)
    (g : β → (rest : List Token) → Step rest γ) :
    (s.andThen f).andThen (fun b rest _ => g b rest) =
      s.andThen fun a rest le => (f a rest le).andThen fun b rest _ => g b rest := by
  obtain ⟨result, faults, rest, le⟩ := s
  cases result with
  | error span => simp only [andThen, either, failed, List.append_nil]
  | ok a =>
    refine eq_of_parts rfl ?_ rfl
    exact List.append_assoc ..

theorem behind_andThen {t : Token} (s : Step ts α) (g : α → (rest : List Token) → Step rest β) :
    (s.behind tail_le : Step (t :: ts) α).andThen (fun a rest _ => g a rest) =
      (s.andThen fun a rest _ => g a rest).behind tail_le := by
  obtain ⟨result, faults, rest, le⟩ := s
  cases result with
  | ok a => rfl
  | error span => rfl

end Step

namespace Parser
variable {stop : Span} {depth least strength : Nat} {op : BinaryOp} {left : Link} {t : Token}

/-- Operands joined by operators that bind at least as strongly as given. -/
def operands (least : Nat) (stop : Span) (depth : Nat) (ts : List Token) : Step ts Link :=
  if least ≤ 1 then readExpr stop depth ts
  else if least = 2 then readProduct stop depth ts
  else readFactor stop depth ts

/-- The operators behind an operand, with what they join to it. -/
def joined (least : Nat) (stop : Span) (depth : Nat) (left : Link) (ts : List Token) :
    Step ts Link :=
  if least ≤ 1 then
    (readFactors stop depth left ts).andThen fun left rest _ => readTerms stop depth left rest
  else if least = 2 then readFactors stop depth left ts
  else .done left

theorem operands_eq (least : Nat) (stop : Span) (depth : Nat) (ts : List Token) :
    operands least stop depth ts =
      (readFactor stop depth ts).andThen fun left rest _ => joined least stop depth left rest := by
  simp only [operands, joined]
  split
  · rw [readExpr, readProduct, Step.andThen_assoc]
  · split
    · rw [readProduct]
    · rw [Step.andThen_done]

/-- Whether the next token is a star. -/
def AtFactor (ts : List Token) : Prop := ∃ span rest, ts = ⟨.operator .star, span⟩ :: rest

/-- A step that reads something up to where no factor follows. -/
def Past (s : Step ts Link) : Prop := ∀ link, s.result = .ok link → ¬ AtFactor s.rest

theorem readFactors_of_not (h : ¬ AtFactor ts) : readFactors stop depth left ts = .done left := by
  rw [readFactors.eq_def]
  split
  · next span rest => exact absurd ⟨span, rest, rfl⟩ h
  · rfl

theorem past_andThen {s : Step ts α}
    {f : α → (rest : List Token) → rest.length ≤ ts.length → Step rest Link}
    (h : ∀ a rest le, Past (f a rest le)) : Past (s.andThen f) := by
  obtain ⟨result, faults, rest, le⟩ := s
  cases result with
  | ok a => exact h a rest le
  | error span => exact fun _ hlink => by cases hlink

theorem past_readFactors (stop : Span) (depth : Nat) (left : Link) (ts : List Token) :
    Past (readFactors stop depth left ts) := by
  rw [readFactors.eq_def]
  split
  · next span rest =>
    have hjoined : Past ((readFactor stop depth rest).andThen fun right rest _ =>
        readFactors stop depth (.binary .multiply left right) rest) :=
      past_andThen fun right rest _ =>
        past_readFactors stop depth (.binary .multiply left right) rest
    exact hjoined
  · next hstar =>
    intro link _ hat
    obtain ⟨span, rest, hts⟩ := hat
    exact hstar span rest hts
termination_by ts.length
decreasing_by all_goals (subst_vars; simp only [List.length_cons] at *; omega)

theorem past_readProduct (stop : Span) (depth : Nat) (ts : List Token) :
    Past (readProduct stop depth ts) := by
  rw [readProduct]
  exact past_andThen fun left rest _ => past_readFactors stop depth left rest

theorem joined_of_not_factor (hstrong : least ≤ 1) (h : ¬ AtFactor ts) :
    joined least stop depth left ts = readTerms stop depth left ts := by
  rw [joined, if_pos hstrong, readFactors_of_not h, Step.done_andThen]

theorem not_atFactor_nil : ¬ AtFactor [] := by
  rintro ⟨_, _, h⟩
  cases h

theorem not_atFactor_cons (h : t.kind ≠ .operator .star) : ¬ AtFactor (t :: ts) := by
  rintro ⟨_, _, hts⟩
  cases hts
  exact h rfl

/-- An operator joins what binds more strongly than itself. -/
theorem operator?_eq_some (h : operator? t.kind = some (op, strength)) :
    (t.kind = .operator .star ∧ op = .multiply ∧ strength = 2) ∨
      (t.kind ≠ .operator .star ∧ sumOp? t.kind = some op ∧ strength = 1) := by
  rw [operator?.eq_def] at h
  split at h
  · next hkind =>
    cases h
    exact .inr ⟨hkind ▸ by decide, hkind ▸ rfl, rfl⟩
  · next hkind =>
    cases h
    exact .inr ⟨hkind ▸ by decide, hkind ▸ rfl, rfl⟩
  · next hkind =>
    cases h
    exact .inl ⟨hkind, rfl, rfl⟩
  · cases h

theorem operator?_eq_none (h : operator? t.kind = none) :
    t.kind ≠ .operator .star ∧ sumOp? t.kind = none := by
  rw [operator?.eq_def] at h
  split at h
  iterate 3 cases h
  next hplus hminus hstar =>
    refine ⟨hstar, ?_⟩
    rw [sumOp?.eq_def]
    split
    · next hkind => exact absurd hkind hplus
    · next hkind => exact absurd hkind hminus
    · rfl

theorem joined_nil : joined least stop depth left [] = .done left := by
  rw [joined, readFactors_of_not not_atFactor_nil, Step.done_andThen, readTerms]
  split
  · rfl
  · exact ite_self _

theorem joined_of_none (h : operator? t.kind = none) :
    joined least stop depth left (t :: ts) = .done left := by
  obtain ⟨hstar, hsum⟩ := operator?_eq_none h
  rw [joined, readFactors_of_not (not_atFactor_cons hstar), Step.done_andThen, readTerms, hsum]
  split
  · rfl
  · exact ite_self _

theorem joined_of_lt (h : operator? t.kind = some (op, strength)) (hlt : strength < least) :
    joined least stop depth left (t :: ts) = .done left := by
  rcases operator?_eq_some h with ⟨_, _, rfl⟩ | ⟨hstar, _, rfl⟩
  · rw [joined, if_neg (by omega), if_neg (by omega)]
  · rw [joined, if_neg (by omega), readFactors_of_not (not_atFactor_cons hstar)]
    exact ite_self _

/-- An operator that binds strongly enough joins operands that bind more strongly than itself. -/
theorem joined_of_le (h : operator? t.kind = some (op, strength)) (hle : least ≤ strength) :
    joined least stop depth left (t :: ts) =
      ((operands (strength + 1) stop depth ts).andThen fun right rest _ =>
        joined least stop depth (.binary op left right) rest).behind Step.tail_le := by
  rcases operator?_eq_some h with ⟨hstar, rfl, rfl⟩ | ⟨hstar, hsum, rfl⟩
  · obtain ⟨kind, span⟩ := t
    obtain rfl : kind = .operator .star := hstar
    have hoperands : operands 3 stop depth ts = readFactor stop depth ts := rfl
    by_cases hone : least ≤ 1
    · simp only [joined, if_pos hone]
      rw [readFactors, Step.behind_andThen, Step.andThen_assoc, hoperands]
    · have htwo : least = 2 := by omega
      simp only [joined, if_neg hone, if_pos htwo]
      rw [readFactors, hoperands]
  · have hoperands : operands 2 stop depth ts = readProduct stop depth ts := rfl
    have hjoined : ((readProduct stop depth ts).andThen fun right rest _ =>
          joined least stop depth (.binary op left right) rest) =
        (readProduct stop depth ts).andThen fun right rest _ =>
          readTerms stop depth (.binary op left right) rest :=
      Step.andThen_congr fun right hright =>
        joined_of_not_factor hle (past_readProduct stop depth ts right hright)
    rw [joined_of_not_factor hle (not_atFactor_cons hstar), readTerms, hsum, hoperands, hjoined]

end Parser
end Patchbay.Program
