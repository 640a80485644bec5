import Patchbay.Json.Basic
import Patchbay.Text.Hex

/-! Writing JSON text on several lines: two blanks for each level, a line for each item. -/
namespace Patchbay.Json
open Text

/-- A character inside a string. Quotes, backslashes and control characters are escaped. -/
def escapeChar (c : Char) : List Char :=
  match c with
  | '"' => ['\\', '"']
  | '\\' => ['\\', '\\']
  | '\x08' => ['\\', 'b']
  | '\x0c' => ['\\', 'f']
  | '\n' => ['\\', 'n']
  | '\r' => ['\\', 'r']
  | '\t' => ['\\', 't']
  | c =>
    if c.toNat < 0x20 then ['\\', 'u', '0', '0', hexDigit (c.toNat / 16), hexDigit c.toNat] else [c]

/-- A string in its quotes. Text that is not Unicode is written as half of a surrogate pair. -/
def quoted : Option String → List Char
  | some s => '"' :: s.toList.flatMap escapeChar ++ ['"']
  | none => ['"', '\\', 'u', 'd', '8', '0', '0', '"']

def newline (level : Nat) : List Char := '\n' :: List.replicate (2 * level) ' '

mutual

def pretty (level : Nat) : Json → List Char
  | null => ['n', 'u', 'l', 'l']
  | bool true => ['t', 'r', 'u', 'e']
  | bool false => ['f', 'a', 'l', 's', 'e']
  | number n => n.text
  | string s => quoted s
  | array [] => ['[', ']']
  | array (item :: more) =>
    '[' :: newline (level + 1) ++ pretty (level + 1) item ++ prettyItems (level + 1) more ++
      newline level ++ [']']
  | object [] => ['\x7b', '\x7d']
  | object (member :: more) =>
    '\x7b' :: newline (level + 1) ++ prettyMember (level + 1) member ++
      prettyMembers (level + 1) more ++ newline level ++ ['\x7d']
termination_by structural json => json

/-- The items after the first, each on a line of its own. -/
def prettyItems (level : Nat) : List Json → List Char
  | [] => []
  | item :: more => ',' :: newline level ++ pretty level item ++ prettyItems level more
termination_by structural items => items

def prettyMember (level : Nat) : Option String × Json → List Char
  | (name, value) => quoted name ++ ':' :: ' ' :: pretty level value
termination_by structural member => member

/-- The members after the first, each on a line of its own. -/
def prettyMembers (level : Nat) : List (Option String × Json) → List Char
  | [] => []
  | member :: more => ',' :: newline level ++ prettyMember level member ++ prettyMembers level more
termination_by structural members => members

end

def prettyText (json : Json) : String := String.ofList (pretty 0 json)

end Patchbay.Json
