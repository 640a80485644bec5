import Patchbay.Proofs.Program.Lines

/-! A chain means the same written in both directions. Its links are read as the same expressions
on whichever side their arrows are, and are connected in the order in which signals flow. -/
namespace Patchbay.Program
variable {α β : Type} {ts us rest mid : List Token}

/-- In front of an arrow, or of something else that ends any expression, the tokens are one whole
expression without faults. -/
def ReadsAlone (ts : List Token) : Prop :=
  ∃ stop rest, Ends rest ∧ (readExpr stop 0 (ts ++ rest)).faults = [] ∧
    (readExpr stop 0 (ts ++ rest)).rest = rest

/-- In front of anything that does not go on with them, the tokens are this link but for places. -/
def ReadsAs (ts : List Token) (link : Link) : Prop :=
  ∀ stop rest, Apart rest → Yields rest (· = link) (readExpr stop 0 (ts.map Token.bare ++ rest))

/-- Links, each behind its arrow. -/
def linkedKinds (ways : List Operator) (links : List (List Token)) : List Token.Kind :=
  (ways.zip links).flatMap fun (way, link) => .operator way :: link.map Token.kind

/-- Links with the arrows between them. -/
def chainKinds (ways : List Operator) : List (List Token) → List Token.Kind
  | [] => []
  | first :: others => first.map Token.kind ++ linkedKinds ways others

theorem bare_of_kinds (h : ts.map Token.kind = us.map Token.kind) :
    ts.map Token.bare = us.map Token.bare := by
  have hbare : ∀ ts : List Token,
      ts.map Token.bare = (ts.map Token.kind).map fun kind => ⟨kind, ⟨0, 0⟩⟩ := by
    intro ts
    rw [List.map_map]
    rfl
  rw [hbare, hbare, h]

private theorem bare_map_bare (ts : List Token) :
    (ts.map Token.bare).map Token.bare = ts.map Token.bare := by
  rw [List.map_map]
  rfl

theorem readsAlone_of_nil (stop : Span) (hf : (readExpr stop 0 ts).faults = [])
    (hr : (readExpr stop 0 ts).rest = []) : ReadsAlone ts := by
  refine ⟨stop, [], by simp [Ends], ?_, ?_⟩
  · rwa [List.append_nil]
  · rwa [List.append_nil]

theorem ReadsAlone.exists_readsAs (h : ReadsAlone ts) : ∃ link, ReadsAs ts link := by
  obtain ⟨stop, rest, hends, hfaults, hrest⟩ := h
  have hexchange (stop' : Span) {rest' : List Token} (hr : Apart rest') :
      Exchange False stop' rest rest' := ⟨hends, hr, False.elim⟩
  have hmirrors (stop' : Span) {rest' : List Token} (hr : Apart rest') :=
    mirrors_readExpr (hexchange stop' hr) stop 0 ts
  obtain ⟨link, hlink⟩ := (hmirrors ⟨0, 0⟩ apart_nil).exists_value hfaults
  have hyields : Yields ([] ++ rest) (· = link) (readExpr stop 0 (ts ++ rest)) :=
    ⟨hfaults, hrest, link, hlink, rfl⟩
  exact ⟨link.bare, fun stop' rest' hr => (hmirrors stop' hr).yields hyields⟩

theorem ReadsAs.of_kinds {link : Link} (h : ReadsAs ts link)
    (hk : us.map Token.kind = ts.map Token.kind) : ReadsAs us link := by
  rw [ReadsAs, bare_of_kinds hk]
  exact h

/-- A link read off tokens without places has none. -/
theorem ReadsAs.span {link : Link} (h : ReadsAs ts link) : link.expr.span = ⟨0, 0⟩ := by
  have hexchange : Exchange False ⟨0, 0⟩ [] [] := ⟨by simp [Ends], apart_nil, False.elim⟩
  have hyields : Yields ([] ++ []) (· = link) (readExpr ⟨0, 0⟩ 0 (ts.map Token.bare ++ [])) :=
    h ⟨0, 0⟩ [] apart_nil
  obtain ⟨_, _, _, hbare, rfl⟩ :=
    (mirrors_readExpr hexchange ⟨0, 0⟩ 0 (ts.map Token.bare)).yields hyields
  obtain ⟨_, _, _, hlink, rfl⟩ := hyields
  rw [bare_map_bare, hlink] at hbare
  have hself : _ = Link.bare _ := Except.ok.inj hbare
  rw [hself, Link.span_bare]

/-- Some token begins a link, and it is no mark of the voice block. -/
theorem ReadsAs.exists_cons {link : Link} (h : ReadsAs ts link) :
    ∃ t more, ts = t :: more ∧ voiceMark? t.kind = none := by
  have hfaults := (h ⟨0, 0⟩ [] apart_nil).1
  rw [List.append_nil] at hfaults
  have hatom : (readAtom ⟨0, 0⟩ 1 (ts.map Token.bare)).faults = [] :=
    by_contra fun hatom => faults_readExpr_ne_nil hatom hfaults
  cases ts with
  | nil => exact absurd hatom (Ends.faults_readAtom_ne_nil (by simp [Ends]) _ _)
  | cons t more =>
    have hends : endsExpr t.kind = false := by
      rw [← Bool.not_eq_true]
      intro hends
      refine absurd hatom (Ends.faults_readAtom_ne_nil ?_ _ _)
      rintro _ ⟨⟩
      exact hends
    refine ⟨t, more, rfl, ?_⟩
    rw [voiceMark?.eq_def]
    split
    · next hkind =>
      rw [hkind] at hends
      cases hends
    · next hkind =>
      rw [hkind] at hends
      cases hends
    · rfl

/-- A link is no beginning of a definition. -/
theorem ReadsAs.ne_definition {link : Link} (h : ReadsAs ts link) (name : String)
    (kinds : List Token.Kind) : ts.map Token.kind ≠ .name name :: .operator .assign :: kinds := by
  intro hkinds
  obtain ⟨place, tail, rfl, htail⟩ := exists_of_kinds_cons hkinds
  obtain ⟨span, more, rfl, _⟩ := exists_of_kinds_cons htail
  have hread := (readsBack (.name ⟨name, ⟨0, 0⟩⟩) (.name _)).expr ⟨0, 0⟩ 0
    [⟨.name name, ⟨0, 0⟩⟩] (⟨.operator .assign, ⟨0, 0⟩⟩ :: more.map Token.bare) rfl
    (by simp [Expr.nesting, nestingLimit])
    (stops_cons rfl _ _)
  obtain ⟨_, hrest, _⟩ := h ⟨0, 0⟩ [] apart_nil
  rw [List.append_nil] at hrest
  exact List.cons_ne_nil _ _ (hread.2.1.symm.trans hrest)

/-- The arrows that a chain in this direction may go on with. -/
def Ways (backward : Bool) (ways : List Operator) : Prop :=
  ∀ way ∈ ways, way = .arrow ∨ backward = true ∧ way = .backArrow

private theorem Ways.isArrow {backward : Bool} {way : Operator} {ways : List Operator}
    (h : Ways backward (way :: ways)) (span : Span) :
    isArrow backward ⟨.operator way, span⟩ = true := by
  obtain rfl | ⟨rfl, rfl⟩ := h way List.mem_cons_self
  · rfl
  · rfl

theorem linkedKinds_cons (way : Operator) (ways : List Operator) (link : List Token)
    (links : List (List Token)) : linkedKinds (way :: ways) (link :: links) =
      .operator way :: (link.map Token.kind ++ linkedKinds ways links) := rfl

private theorem apart_linked {backward : Bool} {ways : List Operator} {links : List (List Token)}
    (hl : ways.length = links.length) (hw : Ways backward ways)
    (hts : ts.map Token.kind = linkedKinds ways links) (hr : Apart rest) :
    Apart (ts.map Token.bare ++ rest) := by
  cases links with
  | nil =>
    obtain rfl := List.length_eq_zero_iff.mp hl
    obtain rfl := List.map_eq_nil_iff.mp hts
    exact hr
  | cons link links =>
    obtain ⟨way, ways, rfl⟩ := List.exists_cons_of_length_eq_add_one hl
    obtain ⟨span, more, rfl, _⟩ := exists_of_kinds_cons hts
    obtain rfl | ⟨_, rfl⟩ := hw way List.mem_cons_self
    · exact apart_cons rfl (by simp) _ _
    · exact apart_cons rfl (by simp) _ _

/-- The links behind their arrows are read as what they are on their own. -/
private theorem yields_readLinks_linked {backward : Bool} {stop : Span} {ways : List Operator}
    {links : List (List Token)} {read : List Link} (h : List.Forall₂ ReadsAs links read)
    (hl : ways.length = links.length) (hw : Ways backward ways)
    (hts : ts.map Token.kind = linkedKinds ways links) (hr : Fresh rest) :
    Yields rest (· = read) (readLinks backward stop (ts.map Token.bare ++ rest)) := by
  induction h generalizing ways ts with
  | nil =>
    obtain rfl := List.length_eq_zero_iff.mp hl
    obtain rfl := List.map_eq_nil_iff.mp hts
    rw [List.map_nil, List.nil_append, readLinks_of_noArrow hr.arrow]
    exact .done rfl
  | @cons link read links reads hlink _ ih =>
    obtain ⟨way, ways, rfl⟩ := List.exists_cons_of_length_eq_add_one hl
    obtain ⟨span, more, rfl, hmore⟩ := exists_of_kinds_cons hts
    obtain ⟨us, vs, rfl, hus, hvs⟩ := List.map_eq_append_iff.mp hmore
    have hl' : ways.length = links.length := Nat.succ.inj hl
    have hw' : Ways backward ways := fun way hway => hw way (List.mem_cons_of_mem _ hway)
    rw [List.map_cons, List.map_append, List.cons_append, List.append_assoc, readLinks.eq_def]
    dsimp only
    rw [if_pos (show isArrow backward (Token.bare ⟨.operator way, span⟩) = true from hw.isArrow _)]
    have hread := (hlink.of_kinds hus) stop _ (apart_linked hl' hw' hvs hr.apart)
    refine Yields.behind (hread.andThen ?_)
    rintro _ _ rfl
    exact (ih hl' hw' hvs).map fun _ hreads => congrArg _ hreads

/-- Behind a step that is known, the next one goes on. -/
private theorem andThen_of_yields {s : Step ts α} {value : α} (h : Yields mid (· = value) s)
    (next : α → (rest : List Token) → rest.length ≤ ts.length → Step rest β) :
    ∃ le, s.andThen next = (next value mid le).behind le := by
  obtain ⟨result, faults, left, le⟩ := s
  obtain ⟨rfl, rfl, _, rfl, rfl⟩ := h
  exact ⟨le, rfl⟩

private theorem readChain_linked {backward : Bool} {stop : Span} {ways : List Operator}
    {links : List (List Token)} {first second : Link} {more : List Link}
    (hs : ReadsAs ts second) (h : List.Forall₂ ReadsAs links more)
    (hl : ways.length = links.length) (hw : Ways backward ways)
    (hus : us.map Token.kind = linkedKinds ways links) (hr : Fresh rest) :
    ∃ le, readChain backward stop first (ts.map Token.bare ++ (us.map Token.bare ++ rest)) =
      ⟨.ok (chainOf backward first second more).1, (chainOf backward first second more).2,
        rest, le⟩ := by
  have hsecond := hs stop _ (apart_linked hl hw hus hr.apart)
  rw [readChain]
  obtain ⟨le, hchain⟩ := andThen_of_yields hsecond fun second rest _ =>
    (readLinks backward stop rest).andThen fun more _ _ =>
      (Step.done (chainOf backward first second more).1).noting
        (chainOf backward first second more).2
  obtain ⟨le', hlinks⟩ := andThen_of_yields (yields_readLinks_linked h hl hw hus hr)
    fun more _ _ => (Step.done (chainOf backward first second more).1).noting
      (chainOf backward first second more).2
  refine ⟨le'.trans le, hchain.trans ?_⟩
  rw [hlinks]
  simp only [Step.behind, Step.noting, Step.done, List.append_nil]

private theorem readRouting_linked {backward : Bool} {stop : Span} {ways : List Operator}
    {links : List (List Token)} {first second : Link} {more : List Link} {vs : List Token}
    (hf : ReadsAs ts first) (hs : ReadsAs us second) (h : List.Forall₂ ReadsAs links more)
    (hl : ways.length = links.length) (hw : Ways backward ways)
    (hvs : vs.map Token.kind = linkedKinds ways links) (hr : Fresh rest) :
    ∃ le, readRouting stop (ts.map Token.bare ++ ⟨.operator (firstWay backward), ⟨0, 0⟩⟩ ::
      (us.map Token.bare ++ (vs.map Token.bare ++ rest))) =
        ⟨.ok (chainOf backward first second more).1, (chainOf backward first second more).2,
          rest, le⟩ := by
  have hfirst := hf stop (⟨.operator (firstWay backward), ⟨0, 0⟩⟩ ::
    (us.map Token.bare ++ (vs.map Token.bare ++ rest))) (by
      cases backward
      · exact apart_cons rfl (by simp) _ _
      · exact apart_cons rfl (by simp) _ _)
  obtain ⟨le, hrouting⟩ := andThen_of_yields hfirst fun first rest _ => readBehind stop first rest
  obtain ⟨le', hchain⟩ : ∃ le, readChain backward stop first _ = ⟨_, _, _, le⟩ :=
    readChain_linked hs h hl hw hvs hr
  rw [readRouting_eq_readBehind, hrouting]
  rw [readBehind_firstWay, hchain]
  exact ⟨_, rfl⟩

/-- With an arrow behind it, a link is no beginning of a definition either. -/
private theorem ReadsAs.kinds_ne_definition {link : Link} {way : Operator} (h : ReadsAs ts link)
    (hway : way ≠ .assign) (more : List Token.Kind) (name : String) (kinds : List Token.Kind) :
    ts.map Token.kind ++ .operator way :: more ≠ .name name :: .operator .assign :: kinds := by
  obtain ⟨t, tail, rfl, _⟩ := h.exists_cons
  intro hkinds
  obtain ⟨ht, hmore⟩ := List.cons_eq_cons.mp hkinds
  cases tail with
  | nil => exact hway (Token.Kind.operator.inj (List.cons_eq_cons.mp hmore).1)
  | cons second tail =>
    obtain ⟨hsecond, _⟩ := List.cons_eq_cons.mp hmore
    refine h.ne_definition name (tail.map Token.kind) ?_
    rw [List.map_cons, List.map_cons, ht, hsecond]

/-- A chain is read as the statement that its links on their own make, and nothing of it is left. -/
private theorem readStatement_chain {backward : Bool} {stop : Span} {ways : List Operator}
    {links : List (List Token)} {first second : Link} {more : List Link}
    (h : List.Forall₂ ReadsAs links (first :: second :: more))
    (hl : ways.length + 2 = links.length) (hw : Ways backward ways)
    (hts : ts.map Token.kind = chainKinds (firstWay backward :: ways) links) (hr : Fresh rest) :
    ∃ le, readStatement stop (ts.map Token.bare ++ rest) =
      ⟨.ok (chainOf backward first second more).1, (chainOf backward first second more).2,
        rest, le⟩ := by
  obtain ⟨l, ls, hfirst, hmore, rfl⟩ := List.forall₂_cons_right_iff.mp h
  obtain ⟨m, ms, hsecond, hothers, rfl⟩ := List.forall₂_cons_right_iff.mp hmore
  have hl' : ways.length = ms.length := by simpa using hl
  obtain ⟨us, vs, rfl, hus, hvs⟩ := List.map_eq_append_iff.mp hts
  rw [linkedKinds_cons] at hvs
  obtain ⟨span, ws, rfl, hws⟩ := exists_of_kinds_cons hvs
  obtain ⟨xs, ys, rfl, hxs, hys⟩ := List.map_eq_append_iff.mp hws
  have hall : (us ++ ⟨.operator (firstWay backward), span⟩ :: (xs ++ ys)).map Token.bare ++ rest =
      us.map Token.bare ++ ⟨.operator (firstWay backward), ⟨0, 0⟩⟩ ::
        (xs.map Token.bare ++ (ys.map Token.bare ++ rest)) := by
    simp [Token.bare]
  have hfirst' := hfirst.of_kinds hus
  rw [hall, readStatement_eq_readRouting]
  · exact readRouting_linked hfirst' (hsecond.of_kinds hxs) hothers hl' hw hys hr
  · intro name kinds
    have hkinds : (us.map Token.bare).map Token.kind = us.map Token.kind := by
      rw [List.map_map]
      rfl
    rw [List.map_append, List.map_cons, hkinds]
    refine hfirst'.kinds_ne_definition ?_ _ name kinds
    cases backward <;> simp [firstWay]

/-- Where a line begins, a chain is a line, whatever stands behind it. -/
private theorem readLines_chain {backward : Bool} {stop : Span} {block : Block}
    {ways : List Operator} {links : List (List Token)} {first second : Link} {more : List Link}
    (h : List.Forall₂ ReadsAs links (first :: second :: more))
    (hl : ways.length + 2 = links.length) (hw : Ways backward ways)
    (hts : ts.map Token.kind = chainKinds (firstWay backward :: ways) links) (hr : Fresh rest) :
    readLines stop block (ts.map Token.bare ++ rest) = (readLines stop block rest).behind
      [⟨block.scope, (chainOf backward first second more).1⟩]
      (chainOf backward first second more).2 := by
  obtain ⟨l, ls, hfirst, _, rfl⟩ := List.forall₂_cons_right_iff.mp h
  obtain ⟨⟨kind, place⟩, after, rfl, hmark⟩ := hfirst.exists_cons
  obtain ⟨span, tail, rfl, _⟩ := exists_of_kinds_cons hts
  obtain ⟨le, hread⟩ : ∃ le, readStatement stop
      (⟨kind, ⟨0, 0⟩⟩ :: (tail.map Token.bare ++ rest)) = ⟨_, _, rest, le⟩ :=
    readStatement_chain h hl hw hts hr
  have hlength : rest.length ≤ (tail.map Token.bare ++ rest).length := by
    rw [List.length_append]
    omega
  have hbare : voiceMark? (Token.kind ⟨kind, ⟨0, 0⟩⟩) = none := hmark
  show readLines stop block (⟨kind, ⟨0, 0⟩⟩ :: (tail.map Token.bare ++ rest)) = _
  rw [readLines_of_noMark hbare, hread]
  dsimp only
  rw [if_pos hlength]
  rfl

theorem exists_forall₂_readsAs {links : List (List Token)} (h : ∀ l ∈ links, ReadsAlone l) :
    ∃ read, List.Forall₂ ReadsAs links read := by
  induction links with
  | nil => exact ⟨[], .nil⟩
  | cons l links ih =>
    obtain ⟨hl, hmore⟩ := List.forall_mem_cons.mp h
    obtain ⟨link, hlink⟩ := hl.exists_readsAs
    obtain ⟨read, hread⟩ := ih hmore
    exact ⟨link :: read, .cons hlink hread⟩

/-- Of two links or more, one is the first and another the last. -/
theorem exists_first_last {read : List Link} {n : Nat} (h : read.length = n + 2) :
    ∃ first between last, read = first :: between ++ [last] := by
  obtain ⟨first, more, rfl⟩ := List.exists_cons_of_length_eq_add_one h
  have hmore : more ≠ [] := by
    rintro rfl
    cases h
  exact ⟨first, more.dropLast, more.getLast hmore, by simp [List.dropLast_append_getLast]⟩

/-- Without places in the links there is none in the chain. -/
private theorem chainOf_concat {backward : Bool} {first last second : Link}
    {between more : List Link} (hmore : second :: more = between ++ [last])
    (hspan : ∀ l ∈ first :: between ++ [last], l.expr.span = ⟨0, 0⟩) :
    chainOf backward first second more =
      if backward then
        (.chain last.expr (between.map Link.expr).reverse first.expr ⟨0, 0⟩,
          linkFaults (first :: between ++ [last]).reverse)
      else
        (.chain first.expr (between.map Link.expr) last.expr ⟨0, 0⟩,
          linkFaults (first :: between ++ [last])) := by
  have hjoin : ∀ links : List Link, (∀ l ∈ links, l.expr.span = ⟨0, 0⟩) →
      links.foldl (fun (span : Span) link => span.join link.expr.span) ⟨0, 0⟩ = ⟨0, 0⟩ := by
    intro links hlinks
    induction links with
    | nil => rfl
    | cons l rest ih =>
      obtain ⟨hl, hrest⟩ := List.forall_mem_cons.mp hlinks
      rw [List.foldl_cons, hl]
      exact ih hrest
  rw [List.cons_append, List.forall_mem_cons] at hspan
  simp only [chainOf, hmore, hspan.1, hjoin _ hspan.2, List.getLast_append_singleton,
    List.dropLast_concat, List.cons_append]

private theorem span_of_readsAs {links : List (List Token)} {read : List Link}
    (h : List.Forall₂ ReadsAs links read) : ∀ l ∈ read, l.expr.span = ⟨0, 0⟩ := by
  induction h with
  | nil => exact fun l hl => absurd hl List.not_mem_nil
  | cons hlink _ ih => exact List.forall_mem_cons.mpr ⟨hlink.span, ih⟩

/-- Links with arrows to the right, and the same links the other way round with arrows to the left,
or also to the right behind the first, are one and the same chain, with the same faults, wherever a
line begins and whatever stands behind. -/
theorem readLines_bothWays {links : List (List Token)} {read between : List Link}
    {first last : Link} {ways : List Operator} (h : List.Forall₂ ReadsAs links read)
    (hread : read = first :: between ++ [last]) (hl : ways.length + 2 = links.length)
    (hw : Ways true ways)
    (hts : ts.map Token.kind = chainKinds (List.replicate (ways.length + 1) .arrow) links ∨
      ts.map Token.kind = chainKinds (.backArrow :: ways) links.reverse)
    (hr : Fresh rest) (stop : Span) (block : Block) :
    readLines stop block (ts.map Token.bare ++ rest) = (readLines stop block rest).behind
      [⟨block.scope, .chain first.expr (between.map Link.expr) last.expr ⟨0, 0⟩⟩]
      (linkFaults read) := by
  have hspan := span_of_readsAs h
  subst hread
  rcases hts with hts | hts
  · obtain ⟨second, more, hmore⟩ : ∃ second more, between ++ [last] = second :: more :=
      List.exists_cons_of_ne_nil (by simp)
    rw [List.cons_append, hmore] at h
    have hways : Ways false (List.replicate ways.length .arrow) := fun way hway =>
      .inl (List.eq_of_mem_replicate hway)
    have hlength : (List.replicate ways.length Operator.arrow).length + 2 = links.length := by
      rwa [List.length_replicate]
    rw [readLines_chain h hlength hways hts hr, chainOf_concat hmore.symm hspan]
    rfl
  · obtain ⟨second, more, hmore⟩ : ∃ second more, between.reverse ++ [first] = second :: more :=
      List.exists_cons_of_ne_nil (by simp)
    have hreverse : (first :: between ++ [last]).reverse = last :: between.reverse ++ [first] := by
      simp
    have hback := List.forall₂_reverse_iff.mpr h
    rw [hreverse, List.cons_append, hmore] at hback
    have hspan' : ∀ l ∈ last :: between.reverse ++ [first], l.expr.span = ⟨0, 0⟩ := by
      intro l hlink
      rw [← hreverse] at hlink
      exact hspan l (List.mem_reverse.mp hlink)
    have hlength : ways.length + 2 = links.reverse.length := by rwa [List.length_reverse]
    rw [readLines_chain hback hlength hw hts hr, chainOf_concat hmore.symm hspan', if_pos rfl,
      ← hreverse, List.map_reverse, List.reverse_reverse, List.reverse_reverse]

/-- Where a line begins that nothing before it goes on with. -/
def startsLine : List Token.Kind → Bool
  | [] => true
  | .keyword .new :: _ | .keyword .startVoice :: _ | .keyword .endVoice :: _ => true
  | .number _ _ :: _ => true
  | .name _ :: .mark .openParen :: _ => false
  | .name _ :: _ => true
  | _ => false

private theorem fresh_cons {kind : Token.Kind} (h : goesOn kind = false)
    (hg : kind ≠ .mark .openParen) (ho : ∀ op, kind ≠ .operator op) (span : Span)
    (rest : List Token) : Fresh (⟨kind, span⟩ :: rest) := by
  refine ⟨⟨stops_cons h span rest, ?_⟩, ?_, ?_⟩
  · rintro _ ⟨⟩
    simp [isArrow, ho]
  · rintro _ _ ⟨⟩
    exact hg rfl
  · rintro _ _ ⟨⟩
    exact ho _ rfl

private theorem fresh_name (name : String) (span : Span)
    (h : ∀ bracket more, rest ≠ ⟨.mark .openParen, bracket⟩ :: more) :
    Fresh (⟨.name name, span⟩ :: rest) := by
  refine ⟨⟨⟨⟨?_, ?_, ?_⟩, ?_, ?_, ?_⟩, ?_⟩, ?_, ?_⟩
  · simp
  · simp
  · rintro _ _ bracket more ⟨⟩
    exact h bracket more rfl
  · rintro _ ⟨⟩
    rfl
  · simp
  · rintro _ ⟨⟩
    rfl
  · rintro _ ⟨⟩
    rfl
  · simp
  · simp

theorem fresh_of_startsLine (h : startsLine (ts.map Token.kind) = true) : Fresh ts := by
  cases ts with
  | nil => exact fresh_nil
  | cons t more =>
    obtain ⟨kind, span⟩ := t
    cases kind with
    | number value unit => exact fresh_cons rfl (by simp) (by simp) span more
    | keyword k =>
      cases k with
      | bi => cases h
      | _ => exact fresh_cons rfl (by simp) (by simp) span more
    | name name =>
      refine fresh_name name span ?_
      rintro bracket after rfl
      cases h
    | _ => cases h

theorem bare_ofTokens (ts : List Token) :
    (ofTokens ts).bare = readLines ⟨0, 0⟩ ⟨none, false⟩ (ts.map Token.bare) :=
  (readLines_bare _ ⟨none, false⟩ ts).symm

/-- The tokens are lines without faults, once a voice block left open in them is closed. -/
def Begun (ts : List Token) : Prop := ∃ rest, Closes rest ∧ (ofTokens (ts ++ rest)).faults = []

/-- Lines are read before others as they are on their own. -/
theorem Begun.exists_block (h : Begun ts) : ∃ lines block, ∀ rest, ts = [] ∨ Fresh rest →
    readLines ⟨0, 0⟩ ⟨none, false⟩ (ts.map Token.bare ++ rest) =
      (readLines ⟨0, 0⟩ block rest).behind lines [] := by
  by_cases hnone : ts = []
  · exact ⟨[], ⟨none, false⟩, fun rest _ => hnone ▸ rfl⟩
  · obtain ⟨closing, hc, hfaults⟩ := h
    obtain ⟨block, read, hread, hread'⟩ := exists_readLines hc.ends hc.fresh
      False.elim ⟨none, false⟩ ts (.inr hfaults)
    have hquiet : read.bare.faults = [] := by
      rw [ofTokens, hread] at hfaults
      rw [Reading.bare, (List.append_eq_nil_iff.mp hfaults).1]
      rfl
    refine ⟨read.bare.program.lines, block.bare, fun rest hrest => ?_⟩
    rw [← hquiet]
    exact hread' ⟨0, 0⟩ rest ⟨hc.ends, hc.fresh, hrest.resolve_left hnone, False.elim⟩

/-- On its own, a chain is the only line of the program, either way. -/
theorem ofTokens_bothWays {links : List (List Token)} {read between : List Link}
    {first last : Link} {ways : List Operator} (h : List.Forall₂ ReadsAs links read)
    (hread : read = first :: between ++ [last]) (hl : ways.length + 2 = links.length)
    (hw : Ways true ways)
    (hts : ts.map Token.kind = chainKinds (List.replicate (ways.length + 1) .arrow) links ∨
      ts.map Token.kind = chainKinds (.backArrow :: ways) links.reverse) :
    (ofTokens ts).bare =
      ⟨⟨[⟨.global, .chain first.expr (between.map Link.expr) last.expr ⟨0, 0⟩⟩]⟩,
        linkFaults read⟩ := by
  have hlines := readLines_bothWays h hread hl hw hts fresh_nil ⟨0, 0⟩ ⟨none, false⟩
  rw [List.append_nil] at hlines
  rw [bare_ofTokens, hlines, readLines.eq_def]
  simp only [Reading.behind, List.append_nil]
  rfl

/-- Between lines before and behind it, a chain gives the same program either way. -/
theorem exists_ofTokens_bothWays {links : List (List Token)} {read between : List Link}
    {first last : Link} {ways : List Operator} (h : List.Forall₂ ReadsAs links read)
    (hread : read = first :: between ++ [last]) (hl : ways.length + 2 = links.length)
    (hw : Ways true ways) {front back : List Token} (hfront : Begun front)
    (hback : startsLine (back.map Token.kind) = true) :
    ∃ r : Reading, ∀ ts : List Token,
      (ts.map Token.kind = chainKinds (List.replicate (ways.length + 1) .arrow) links ∨
        ts.map Token.kind = chainKinds (.backArrow :: ways) links.reverse) →
      (front = [] ∨ startsLine ((ts ++ back).map Token.kind) = true) →
        (ofTokens (front ++ ts ++ back)).bare = r := by
  have hfresh : ∀ ts : List Token, startsLine (ts.map Token.kind) = true →
      Fresh (ts.map Token.bare) := by
    intro ts hts
    refine fresh_of_startsLine ?_
    rwa [List.map_map]
  obtain ⟨lines, block, hbegun⟩ := hfront.exists_block
  refine ⟨((readLines ⟨0, 0⟩ block (back.map Token.bare)).behind [⟨block.scope,
    .chain first.expr (between.map Link.expr) last.expr ⟨0, 0⟩⟩] (linkFaults read)).behind lines [],
    fun ts hts hstart => ?_⟩
  have hafter := hstart.imp_right (hfresh (ts ++ back))
  rw [bare_ofTokens, List.append_assoc, List.map_append, hbegun _ hafter, List.map_append,
    readLines_bothWays h hread hl hw hts (hfresh back hback)]

end Patchbay.Program
