import Patchbay.Engine.Wiring
import Patchbay.Proofs.Catalog.Regular
import Patchbay.Unit.Basic

/-! Complete libraries: every class has a kind of unit, and its units have a signal for each output
of the class. The standard library is complete. -/
namespace Patchbay

/-- How many signals units of a kind give, when their class has so many sockets. -/
def UnitKind.width (sockets : Nat) : UnitKind → Nat
  | sink => 0
  | passThrough => sockets
  | pingPong => 2
  | _ => 1

namespace SoundUnit
variable {α : Type}

/-- How many signals a unit gives for so many at its sockets. -/
def width (inputs : Nat) : SoundUnit α → Nat
  | sink => 0
  | passThrough => inputs
  | pingPong _ _ _ => 2
  | _ => 1

theorem width_setValue (value : α) (u : SoundUnit α) (inputs : Nat) :
    (u.setValue value).width inputs = u.width inputs := by
  cases u <;> rfl

variable [Arithmetic α]

theorem width_ofKind (sampleRate : α) (seed : UInt64) (kind : UnitKind) (inputs : Nat) :
    (ofKind sampleRate seed kind).width inputs = kind.width inputs := by
  cases kind <;> rfl

theorem width_process (u : SoundUnit α) (signals : List α) (inputs : Nat) :
    (u.process signals).1.width inputs = u.width inputs := by
  cases u <;> rfl

theorem length_process (u : SoundUnit α) (signals : List α) :
    (u.process signals).2.length = u.width signals.length := by
  cases u <;> rfl

end SoundUnit

/-- What an engine asks of a library: the built-in classes, and for every class a kind of unit that
gives as many signals as the class has outputs. -/
structure Library.Complete (l : Library) : Prop where
  regular : l.catalog.Regular
  sockets : ∀ name c, l.catalog.resolve? name = some c → c.sockets.length ≤ Engine.socketLimit
  kinds : ∀ name c, l.catalog.resolve? name = some c →
    ∃ kind, l.kind? c.name = some kind ∧ kind.width c.sockets.length = c.outputs.length
  input : ∃ c, l.catalog.resolve? Builtin.userInput = some c ∧ c.name = Builtin.userInput
  output : ∃ c, l.catalog.resolve? Builtin.stereoOutput = some c ∧ c.name = Builtin.stereoOutput ∧
    c.hasSocket "left" = true ∧ c.hasSocket "right" = true

namespace Library

/-- A complete library makes a unit of every class, as wide as the class has outputs. -/
theorem Complete.exists_create? {l : Library} (h : l.Complete) {name : String} {c : UnitClass}
    (hc : l.catalog.resolve? name = some c) {α : Type} [Arithmetic α] (sampleRate : α)
    (seed : UInt64) :
    ∃ unit, l.create? c.name sampleRate seed = some unit ∧
      unit.width c.sockets.length = c.outputs.length := by
  obtain ⟨kind, hkind, hwidth⟩ := h.kinds name c hc
  refine ⟨.ofKind sampleRate seed kind, ?_, ?_⟩
  · rw [create?, hkind, Option.map_some]
  · rw [SoundUnit.width_ofKind, hwidth]

private theorem standard_kinds : ∀ c ∈ standard.catalog.classes.toList,
    (standard.kind? c.name).map (UnitKind.width c.sockets.length) = some c.outputs.length := by
  decide

theorem standard_complete : standard.Complete where
  regular := standard_regular
  sockets name c hc := by
    have hall : ∀ c ∈ standard.catalog.classes.toList,
        c.sockets.length ≤ Engine.socketLimit := by decide
    exact hall c (Catalog.mem_of_resolve? hc)
  kinds name c hc :=
    Option.map_eq_some_iff.mp (standard_kinds c (Catalog.mem_of_resolve? hc))
  input := by
    refine ⟨_, rfl, ?_⟩
    decide
  output := by
    refine ⟨_, rfl, ?_⟩
    decide

end Library
end Patchbay
