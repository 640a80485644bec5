import Patchbay.Building.Run

/-! What work on a statement leads to, step by step. Each operation has one law that tells the state
and the value or fault it ends in. -/
namespace Patchbay.Building
variable {α β γ : Type}

/-- From state `s` the work ends with a value and a state as in `post`, or with a fault as in
`failed`. -/
def Leads (w : Work α β) (s : State α) (post : β → State α → Prop)
    (failed : Located Fault → State α → Prop) : Prop :=
  match w.run s with
  | (.ok value, s) => post value s
  | (.error fault, s) => failed fault s

/-- Nothing is said of a value and the objects behind it. -/
abbrev Any : β → γ → Prop := fun _ _ => True

variable {s : State α} {post : β → State α → Prop} {failed : Located Fault → State α → Prop}

theorem leads_pure (value : β) : Leads (pure value : Work α β) s post failed ↔ post value s :=
  Iff.rfl

theorem leads_fail (fault : Fault) (span : Option Span) :
    Leads (fail fault span : Work α β) s post failed ↔ failed ⟨fault, span⟩ s := Iff.rfl

theorem leads_throw (fault : Located Fault) :
    Leads (throw fault : Work α β) s post failed ↔ failed fault s := Iff.rfl

theorem leads_modify {post : Unit → State α → Prop} (f : State α → State α) :
    Leads (modify f : Work α Unit) s post failed ↔ post () (f s) := Iff.rfl

theorem run_bind (w : Work α β) (next : β → Work α γ) (s : State α) :
    (w >>= next).run s = match w.run s with
      | (.ok value, s) => (next value).run s
      | (.error fault, s) => (.error fault, s) := by
  show (ExceptT.run w >>= ExceptT.bindCont next) s = _
  show (ExceptT.bindCont next (w.run s).1) (w.run s).2 = _
  rcases w.run s with ⟨_ | _, _⟩ <;> rfl

/-- What comes second starts where the first ends. -/
theorem leads_bind (w : Work α β) (next : β → Work α γ) {post : γ → State α → Prop} :
    Leads (w >>= next) s post failed ↔
      Leads w s (fun value s => Leads (next value) s post failed) failed := by
  simp only [Leads, run_bind]
  rcases w.run s with ⟨_ | _, _⟩ <;> rfl

theorem Leads.imp {w : Work α β} {post' : β → State α → Prop}
    {failed' : Located Fault → State α → Prop} (h : Leads w s post failed)
    (hp : ∀ value s, post value s → post' value s)
    (hf : ∀ fault s, failed fault s → failed' fault s) : Leads w s post' failed' := by
  rw [Leads] at *
  split at h
  · exact hp _ _ h
  · exact hf _ _ h

/-- Two findings about the same work hold together. -/
theorem Leads.and {w : Work α β} {post' : β → State α → Prop}
    {failed' : Located Fault → State α → Prop} (h : Leads w s post failed)
    (h' : Leads w s post' failed') :
    Leads w s (fun value s => post value s ∧ post' value s)
      fun fault s => failed fault s ∧ failed' fault s := by
  rw [Leads] at *
  split at h
  · next he => rw [he] at h'; exact ⟨h, h'⟩
  · next he => rw [he] at h'; exact ⟨h, h'⟩

/-- The state after a statement, told by what its work leads to. -/
theorem Leads.after (post : State α → Prop) {w : Work α Unit}
    (h : Leads w s (fun _ s => post s) fun fault s => post { s with faults := s.faults ++ [fault] }) :
    post (s.after w) := by
  rw [Leads] at h
  rw [State.after]
  split at h
  · next he => rw [he]; exact h
  · next he => rw [he]; exact h

/-- A new object with nothing connected to it. -/
def Draft.fresh (cls : UnitClass) (scope : Scope) (origin : Origin) (span : Option Span) : Draft α :=
  ⟨cls, scope = .voice, List.replicate cls.sockets.length [], span, origin⟩

/-- One object more. -/
def State.add (s : State α) (d : Draft α) : State α := { s with objects := s.objects ++ [d] }

theorem leads_addObject {post : Ref → State α → Prop} (cls : UnitClass) (scope : Scope)
    (origin : Origin) (span : Option Span) :
    Leads (addObject cls scope origin span) s post failed ↔
      post ⟨s.objects.length, cls⟩ (s.add (.fresh cls scope origin span)) := Iff.rfl

theorem leads_classUnder {post : UnitClass → State α → Prop} (catalog : Catalog) (name : String)
    (span : Option Span) :
    Leads (classUnder catalog name span) s post failed ↔
      match catalog.resolve? name with
      | some c => post c s
      | none => failed ⟨.undefinedClass name, span⟩ s := by
  rw [classUnder]
  cases catalog.resolve? name <;> rfl

theorem leads_find {post : Value α → State α → Prop} (scope : Scope) (ident : Ident) :
    Leads (find scope ident) s post failed ↔
      match s.find? scope ident.name with
      | some value => post value s
      | none => failed ⟨.undefinedName ident.name, some ident.span⟩ s := by
  show Leads (match s.find? scope ident.name with
    | some value => pure value
    | none => fail (.undefinedName ident.name) (some ident.span)) s post failed ↔ _
  cases s.find? scope ident.name <;> rfl

theorem leads_findObject {post : Ref → State α → Prop} (scope : Scope) (part : Part)
    (ident : Ident) :
    Leads (findObject scope part ident) s post failed ↔
      match s.find? scope ident.name with
      | some [.object ref _] => post ref s
      | some _ => failed ⟨.notAnObject part ident.name, some ident.span⟩ s
      | none => failed ⟨.undefinedName ident.name, some ident.span⟩ s := by
  rw [findObject, leads_bind, leads_find]
  cases s.find? scope ident.name with
  | none => rfl
  | some value => rcases value with _ | ⟨_ | _ | _ | _, _ | _⟩ <;> rfl

/-- What a value adds to a socket, up to the first part that cannot be read. -/
def gather : Value α → List (Contribution α) × Option (Located Fault)
  | [] => ([], none)
  | atom :: rest =>
    match contributions atom with
    | .error fault => ([], some fault)
    | .ok more => (more ++ (gather rest).1, (gather rest).2)

theorem mix_nil (s : State α) (object socket : Nat) : s.mix object socket [] = s := by
  have hmixes : (fun d : Draft α => { d with mixes := d.mixes.modify socket (· ++ []) }) = id := by
    have hadd : (fun mix : List (Contribution α) => mix ++ []) = id := funext List.append_nil
    funext d
    rw [hadd, List.modify_id]
    rfl
  rw [State.mix, hmixes, List.modify_id]

theorem mix_mix (s : State α) (object socket : Nat) (first second : List (Contribution α)) :
    (s.mix object socket first).mix object socket second =
      s.mix object socket (first ++ second) := by
  simp [State.mix, List.modify_modify_eq, Function.comp_def]

theorem leads_mixInto {post : Unit → State α → Prop} (object socket : Nat) (value : Value α) :
    Leads (mixInto object socket value) s post failed ↔
      match gather value with
      | (more, none) => post () (s.mix object socket more)
      | (more, some fault) => failed fault (s.mix object socket more) := by
  induction value generalizing s with
  | nil =>
    rw [mixInto, leads_pure, gather]
    dsimp only
    rw [mix_nil]
  | cons atom rest ih =>
    rw [mixInto, gather]
    cases contributions atom with
    | error fault =>
      dsimp only
      rw [mix_nil]
      exact leads_throw fault
    | ok more =>
      dsimp only
      rw [leads_bind, leads_modify, ih]
      rcases gather rest with ⟨_, _ | _⟩ <;> simp only [mix_mix]

theorem leads_plug {post : Unit → State α → Prop} (target : Ref) (socket : String)
    (value : Value α) :
    Leads (plug target socket value) s post failed ↔
      match target.cls.socketIndex? socket with
      | some index => Leads (mixInto target.id index value) s post failed
      | none => failed ⟨.noSuchSocket target.cls.name socket, spanOf value⟩ s := by
  rw [plug]
  cases target.cls.socketIndex? socket <;> rfl

end Patchbay.Building
