import Patchbay.Proofs.Program.Context

/-! Lines are read the same apart from places, and before others as on their own. -/
namespace Patchbay.Program
variable {whole : Prop} {rest : List Token}

/-- What a mark of the voice block does to it. -/
def voiceMark? : Token.Kind → Option (Block → Span → Block × List (Located Fault))
  | .keyword .startVoice => some Block.start
  | .keyword .endVoice => some Block.close
  | _ => none

theorem readLines_of_voiceMark {change : Block → Span → Block × List (Located Fault)} {t : Token}
    (h : voiceMark? t.kind = some change) (stop : Span) (block : Block) (rest : List Token) :
    readLines stop block (t :: rest) =
      (readLines stop (change block t.span).1 rest).behind [] (change block t.span).2 := by
  obtain ⟨kind, span⟩ := t
  rw [voiceMark?.eq_def] at h
  split at h
  · next hkind =>
    obtain rfl : kind = .keyword .startVoice := hkind
    cases h
    rw [readLines.eq_def]
  · next hkind =>
    obtain rfl : kind = .keyword .endVoice := hkind
    cases h
    rw [readLines.eq_def]
  · cases h

/-- A line that is no mark of the voice block, and the lines behind it. -/
theorem readLines_of_noMark {t : Token} (h : voiceMark? t.kind = none) (stop : Span)
    (block : Block) (rest : List Token) : readLines stop block (t :: rest) =
      (readLines stop block (if (readStatement stop (t :: rest)).rest.length ≤ rest.length then
        (readStatement stop (t :: rest)).rest else rest)).behind
          [⟨block.scope, statementOf (readStatement stop (t :: rest)).result⟩]
          (readStatement stop (t :: rest)).faults := by
  rw [readLines.eq_def]
  split
  · next hnil => cases hnil
  · next hstart =>
    cases hstart
    cases h
  · next hend =>
    cases hend
    cases h
  · next hts =>
    cases hts
    dsimp only
    split <;> rfl

private theorem voiceMark_bare {kind : Token.Kind}
    {change : Block → Span → Block × List (Located Fault)} (h : voiceMark? kind = some change)
    (block : Block) (span : Span) : change block.bare ⟨0, 0⟩ =
      ((change block span).1.bare, (change block span).2.map Located.bare) := by
  rw [voiceMark?.eq_def] at h
  split at h
  · cases h
    exact start_bare block span
  · cases h
    exact close_bare block span
  · cases h

/-- What is left behind a statement of those tokens: what it left, but at least one token is used
up. -/
private def leftBehind (left tail : List Token) : List Token :=
  if left.length ≤ tail.length then left else tail

private theorem length_leftBehind (left tail : List Token) :
    (leftBehind left tail).length ≤ tail.length := by
  rw [leftBehind]
  split
  · assumption
  · exact Nat.le_refl _

private theorem leftBehind_bare (left tail : List Token) :
    leftBehind (left.map Token.bare) (tail.map Token.bare) =
      (leftBehind left tail).map Token.bare := by
  rw [leftBehind, leftBehind, List.length_map, List.length_map, apply_ite (List.map Token.bare)]

private theorem readLines_left {stop : Span} (block : Block) {t : Token} {tail left : List Token}
    (ht : voiceMark? t.kind = none)
    (hrest : (readStatement stop (t :: tail ++ rest)).rest = left ++ rest) :
    readLines stop block (t :: tail ++ rest) =
      (readLines stop block (leftBehind left tail ++ rest)).behind
        [⟨block.scope, statementOf (readStatement stop (t :: tail ++ rest)).result⟩]
        (readStatement stop (t :: tail ++ rest)).faults := by
  rw [List.cons_append] at hrest ⊢
  rw [readLines_of_noMark ht, hrest, leftBehind, List.length_append, List.length_append]
  simp only [Nat.add_le_add_iff_right]
  split <;> rfl

private theorem behind_behind (r : Reading) (lines lines' : List Line)
    (faults faults' : List (Located Fault)) : (r.behind lines' faults').behind lines faults =
      r.behind (lines ++ lines') (faults ++ faults') := by
  simp only [Reading.behind, List.append_assoc]

/-- Up to something that ends any expression, lines read without faults leave the voice block in
one state, whatever is read from there on. Nothing behind them, so do lines with faults. -/
theorem exists_readLines {stop : Span} (hends : Ends rest) (hfresh : Fresh rest)
    (hrest : whole → rest = []) (block : Block) (us : List Token)
    (hquiet : whole ∨ (readLines stop block (us ++ rest)).faults = []) :
    ∃ (left : Block) (read : Reading),
      readLines stop block (us ++ rest) =
        (readLines stop left rest).behind read.program.lines read.faults ∧
      ∀ stop' rest', LineExchange whole stop' rest rest' →
        readLines stop' block.bare (us.map Token.bare ++ rest') =
          (readLines stop' left.bare rest').behind read.bare.program.lines read.bare.faults := by
  cases us with
  | nil => exact ⟨block, ⟨⟨[]⟩, []⟩, rfl, fun _ _ _ => rfl⟩
  | cons t tail =>
    cases ht : voiceMark? t.kind with
    | some change =>
      rw [List.cons_append, readLines_of_voiceMark ht] at hquiet ⊢
      obtain ⟨left, read, hread, hread'⟩ := exists_readLines hends hfresh hrest
        (change block t.span).1 tail
        (hquiet.imp_right fun hf => (List.append_eq_nil_iff.mp hf).2)
      refine ⟨left, ⟨read.program, (change block t.span).2 ++ read.faults⟩, ?_, ?_⟩
      · rw [hread, behind_behind]
        rfl
      · intro stop' rest' h
        have hmark : voiceMark? t.bare.kind = some change := ht
        rw [List.map_cons, List.cons_append, readLines_of_voiceMark hmark]
        rw [show t.bare.span = ⟨0, 0⟩ from rfl, voiceMark_bare ht, hread' stop' rest' h,
          behind_behind]
        simp only [Reading.bare, List.map_append, List.nil_append]
    | none =>
      have hself : LineExchange whole ⟨0, 0⟩ rest rest :=
        ⟨hends, hfresh, hfresh, fun hw => ⟨rfl, hrest hw, hrest hw⟩⟩
      have hstep : whole ∨ (readStatement stop (t :: tail ++ rest)).faults = [] := by
        refine hquiet.imp_right fun hf => ?_
        rw [List.cons_append, readLines_of_noMark ht] at hf
        exact (List.append_eq_nil_iff.mp hf).1
      obtain ⟨_, ⟨more, hmore, _⟩, _⟩ := mirrors_readStatement hself stop (t :: tail) hstep
      rw [readLines_left block ht hmore] at hquiet ⊢
      have hlength := length_leftBehind more tail
      obtain ⟨left, read, hread, hread'⟩ := exists_readLines hends hfresh hrest block
        (leftBehind more tail) (hquiet.imp_right fun hf => (List.append_eq_nil_iff.mp hf).2)
      refine ⟨left, read.behind
        [⟨block.scope, statementOf (readStatement stop (t :: tail ++ rest)).result⟩]
        (readStatement stop (t :: tail ++ rest)).faults, ?_, ?_⟩
      · rw [hread, behind_behind]
        rfl
      · intro stop' rest' h
        obtain ⟨hfaults, ⟨more', hmore', hleft⟩, hresult⟩ :=
          mirrors_readStatement h stop (t :: tail) hstep
        obtain rfl := List.append_cancel_right (hmore.symm.trans hmore')
        have hmark : voiceMark? t.bare.kind = none := ht
        have hstatement : statementOf
            (readStatement stop' ((t :: tail).map Token.bare ++ rest')).result =
              (statementOf (readStatement stop (t :: tail ++ rest)).result).bare := by
          cases hs : (readStatement stop (t :: tail ++ rest)).result with
          | ok statement =>
            rw [hs] at hresult
            rw [hresult]
            rfl
          | error span =>
            rw [hs] at hresult
            rw [hresult.2]
            rfl
        have hlines := readLines_left block.bare hmark hleft
        rw [← List.map_cons, leftBehind_bare, hread' stop' rest' h, behind_behind] at hlines
        rw [hlines, hfaults, hstatement, scope_bare, behind_bare]
        rfl
termination_by us.length
decreasing_by all_goals (subst_vars; simp only [List.length_cons] at *; omega)

theorem readLines_bare (stop : Span) (block : Block) (ts : List Token) :
    readLines ⟨0, 0⟩ block.bare (ts.map Token.bare) = (readLines stop block ts).bare := by
  have hends : Ends [] := by simp [Ends]
  have hwhole : True ∨ (readLines stop block (ts ++ [])).faults = [] := .inl trivial
  obtain ⟨left, read, hread, hread'⟩ :=
    exists_readLines hends fresh_nil (fun _ => rfl) block ts hwhole
  have hbare := hread' ⟨0, 0⟩ [] ⟨hends, fresh_nil, fresh_nil, fun _ => ⟨rfl, rfl, rfl⟩⟩
  have hend : readLines ⟨0, 0⟩ left.bare [] = (readLines stop left []).bare := by
    rw [readLines.eq_def, readLines.eq_def]
    obtain ⟨_ | _, _⟩ := left <;> rfl
  rw [List.append_nil] at hread hbare
  rw [hbare, hread, hend, behind_bare]
  rfl

/-- Tokens without places are read as the program without places, with the faults without places. -/
theorem ofTokens_bare (ts : List Token) : ofTokens (ts.map Token.bare) = (ofTokens ts).bare := by
  have hstop : (((ts.map Token.bare).getLast?.map fun t => t.span.stop).getD 0) = 0 := by
    rw [List.getLast?_map]
    cases ts.getLast? <;> rfl
  rw [ofTokens, ofTokens, ← readLines_bare, hstop]
  rfl

/-- Nothing, or the end of a voice block. -/
def Closes (rest : List Token) : Prop := rest = [] ∨ ∃ span, rest = [⟨.keyword .endVoice, span⟩]

theorem Closes.ends (h : Closes rest) : Ends rest := by
  obtain rfl | ⟨span, rfl⟩ := h
  · simp [Ends]
  · simp [Ends, endsExpr]

theorem Closes.fresh (h : Closes rest) : Fresh rest := by
  obtain rfl | ⟨span, rfl⟩ := h
  · exact fresh_nil
  · exact ⟨⟨stops_cons rfl span [], by simp [isArrow]⟩, by simp, by simp⟩

end Patchbay.Program
