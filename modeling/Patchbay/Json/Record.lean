import Patchbay.Json.Basic

/-! Records in JSON: as objects by the names of their fields, or as arrays in the order of the
fields. -/
namespace Patchbay.Json

/-- The fields of a record, each if it is there. An object may hold other members, but each field
once. An array may end early, but holds nothing else. -/
def fields? (names : List String) : Json → Option (List (Option Json))
  | object members =>
    if members.all (·.1.isSome) &&
        names.all fun name => members.countP (·.1 == some name) ≤ 1 then
      some (names.map fun name => members.lookup (some name))
    else none
  | array items =>
    if items.length ≤ names.length then
      some (items.map some ++ List.replicate (names.length - items.length) none)
    else none
  | _ => none

def natural? : Json → Option Nat
  | number n => n.natural?
  | _ => none

def float? : Json → Option Float
  | number n => n.float?
  | _ => none

def bool? : Json → Option Bool
  | bool b => some b
  | _ => none

def text? : Json → Option String
  | string s => s
  | _ => none

def list? (read : Json → Option β) : Json → Option (List β)
  | array items => items.mapM read
  | _ => none

def optional? (read : Json → Option β) : Option Json → Option (Option β)
  | none | some null => some none
  | some value => (read value).map some

mutual

/-- Whether all texts in a value are Unicode, all numbers finite, and arrays and objects nested no
deeper than given. -/
def isPlain (depth : Nat) : Json → Bool
  | null | bool _ => true
  | number n => n.float?.isSome
  | string s => s.isSome
  | array items => 0 < depth && arePlain (depth - 1) items
  | object members => 0 < depth && membersArePlain (depth - 1) members
termination_by structural json => json

def arePlain (depth : Nat) : List Json → Bool
  | [] => true
  | item :: rest => isPlain depth item && arePlain depth rest
termination_by structural items => items

def memberIsPlain (depth : Nat) : Option String × Json → Bool
  | (name, value) => name.isSome && isPlain depth value
termination_by structural member => member

def membersArePlain (depth : Nat) : List (Option String × Json) → Bool
  | [] => true
  | member :: rest => memberIsPlain depth member && membersArePlain depth rest
termination_by structural members => members

end
end Patchbay.Json
