import Patchbay.Program.Fault

/-! Steps of reading a program: what was read off the front of a token list, which faults were
found on the way and which tokens are left. -/
namespace Patchbay.Program

/-- The outcome of reading from `ts`. A failure has reported its fault already and leaves only the
place where it arose. -/
structure Step (ts : List Token) (α : Type) where
  result : Except Span α
  faults : List (Located Fault)
  rest : List Token
  le : rest.length ≤ ts.length

namespace Step

theorem tail_le {rest : List Token} : rest.length ≤ rest.length + 1 := Nat.le_succ _

def done {ts : List Token} (value : α) : Step ts α := ⟨.ok value, [], ts, Nat.le_refl _⟩

/-- Go on with the tokens left over, in one way from a value and in another from a failure. -/
def either {ts : List Token} (s : Step ts α)
    (next : α → (rest : List Token) → rest.length ≤ ts.length → Step rest β)
    (failed : Span → (rest : List Token) → rest.length ≤ ts.length → Step rest β) : Step ts β :=
  let t :=
    match s.result with
    | .ok value => next value s.rest s.le
    | .error span => failed span s.rest s.le
  ⟨t.result, s.faults ++ t.faults, t.rest, Nat.le_trans t.le s.le⟩

def failed {ts : List Token} (span : Span) : Step ts α := ⟨.error span, [], ts, Nat.le_refl _⟩

/-- Go on from a value. A failure stays. -/
def andThen {ts : List Token} (s : Step ts α)
    (next : α → (rest : List Token) → rest.length ≤ ts.length → Step rest β) : Step ts β :=
  s.either next fun span _ _ => failed span

/-- Go on from a failure. A value stays. -/
def orElse {ts : List Token} (s : Step ts α)
    (next : Span → (rest : List Token) → rest.length ≤ ts.length → Step rest α) : Step ts α :=
  s.either (fun value _ _ => done value) next

def map {ts : List Token} (f : α → β) (s : Step ts α) : Step ts β :=
  ⟨s.result.map f, s.faults, s.rest, s.le⟩

def behind {ts us : List Token} (h : ts.length ≤ us.length) (s : Step ts α) : Step us α :=
  ⟨s.result, s.faults, s.rest, Nat.le_trans s.le h⟩

def noting {ts : List Token} (faults : List (Located Fault)) (s : Step ts α) : Step ts α :=
  ⟨s.result, faults ++ s.faults, s.rest, s.le⟩

end Step

/-- Failure at the next token, or at `stop` when none is left. -/
def unexpected (stop : Span) : (ts : List Token) → Step ts α
  | [] => ⟨.error stop, [⟨.unexpectedEnd, none⟩], [], Nat.le_refl _⟩
  | t :: rest => ⟨.error t.span, [⟨.unexpectedToken t.kind, some t.span⟩], t :: rest, Nat.le_refl _⟩

/-- The place of the given token kind, which has to come next. -/
def expect (stop : Span) (kind : Token.Kind) : (ts : List Token) → Step ts Span
  | [] => unexpected stop []
  | t :: rest =>
    if t.kind = kind then ⟨.ok t.span, [], rest, Step.tail_le⟩ else unexpected stop (t :: rest)

def startsWith (kind : Token.Kind) : List Token → Bool
  | [] => false
  | t :: _ => t.kind = kind

end Patchbay.Program
