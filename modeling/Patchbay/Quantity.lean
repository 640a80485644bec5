import Patchbay.Arithmetic

/-! Physical quantities on the scale of signals. Pitches and rates are octaves above middle C, a
duration is the rate at which it recurs, and levels are linear. -/
namespace Patchbay.Quantity
open Arithmetic

variable {α : Type} [Arithmetic α]

def referenceHertz : α := ratio 2616255653005986 10000000000000

def fromHertz (hertz : α) : α := log2 (hertz / referenceHertz)

def toHertz (value : α) : α := referenceHertz * exp2 value

def fromDecibels (decibels : α) : α := pow (natural 10) (decibels / natural 20)

def toDecibels (gain : α) : α := natural 20 * log10 gain

def fromSemitones (semitones : α) : α := semitones / natural 12

def toSemitones (value : α) : α := value * natural 12

def fromCents (cents : α) : α := cents / natural 1200

def toCents (value : α) : α := value * natural 1200

def fromSeconds (seconds : α) : α := fromHertz (natural 1 / seconds)

def toSeconds (value : α) : α := natural 1 / toHertz value

def fromMilliseconds (milliseconds : α) : α := fromSeconds (milliseconds / natural 1000)

def toMilliseconds (value : α) : α := toSeconds value * natural 1000

def fromMinutes (minutes : α) : α := fromSeconds (minutes * natural 60)

def fromHours (hours : α) : α := fromSeconds (hours * natural 3600)

def fromRate (factor : α) : α := log2 factor

def toRate (value : α) : α := exp2 value

/-- A written number with a unit on the scale of signals. Letter case does not matter. Other units
are not known. -/
def ofLiteral? (value : α) (unit : String) : Option α :=
  match unit.map Char.toLower with
  | "" => some value
  | "db" => some (fromDecibels value)
  | "hz" => some (fromHertz value)
  | "ms" => some (fromMilliseconds value)
  | "s" => some (fromSeconds value)
  | "m" => some (fromMinutes value)
  | "h" => some (fromHours value)
  | "semi" => some (fromSemitones value)
  | "cent" => some (fromCents value)
  | "x" => some (fromRate value)
  | _ => none

/-- The frequency of a key, of which the 69th has 440 hertz. -/
def keyHertz (key : Nat) : α :=
  natural 440 * pow (natural 2) ((natural key - natural 69) / natural 12)

def keyPitch (key : Nat) : α := fromHertz (keyHertz key)

end Patchbay.Quantity
