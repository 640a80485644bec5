import Patchbay.Catalog.Basic
import Patchbay.Unit.Kind

/-! Unit libraries: a catalog together with the kind of unit that each class stands for. -/
namespace Patchbay

/-- Classes that belong together, and other names for them. -/
structure UnitSet where
  classes : List (UnitClass × UnitKind)
  aliases : List (String × String)

structure Library where
  catalog : Catalog
  kinds : Table UnitKind

namespace Library

def empty : Library := ⟨.empty, .empty⟩

/-- Add a class and its kind of unit, instead of a class of the same name. -/
def register (l : Library) (c : UnitClass) (kind : UnitKind) : Library :=
  ⟨l.catalog.register c, l.kinds.put c.name kind⟩

def registerAlias (l : Library) (other name : String) : Library :=
  ⟨l.catalog.registerAlias other name, l.kinds⟩

def registerSet (l : Library) (s : UnitSet) : Library :=
  s.aliases.foldl (fun l a => l.registerAlias a.1 a.2)
    (s.classes.foldl (fun l c => l.register c.1 c.2) l)

/-- The kind of unit that a class or another name for it stands for. -/
def kind? (l : Library) (name : String) : Option UnitKind :=
  match l.catalog.resolve? name with
  | none => none
  | some c => l.kinds.get? c.name

def ofSets (sets : List UnitSet) : Library := sets.foldl registerSet empty

end Patchbay.Library
