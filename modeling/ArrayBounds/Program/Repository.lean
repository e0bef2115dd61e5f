import ArrayBounds.Program.Basic
import Std.Data.ExtTreeMap

/-! # Repositories

A repository holds classes, each under its own name. Adding a class replaces an earlier one of the
same name.
-/

namespace ArrayBounds

open Program

/-- In an empty repository every class is stored under its own name. -/
theorem Repository.named_empty (name : String) (c : ClassDef)
    (found : (∅ : Std.ExtTreeMap String ClassDef)[name]? = some c) : c.name = name := by
  rw [Std.ExtTreeMap.getElem?_empty] at found
  cases found

/-- Classes by name. -/
structure Repository where
  classes : Std.ExtTreeMap String ClassDef := ∅
  /-- Every class is stored under its own name. -/
  named : ∀ (name : String) (c : ClassDef), classes[name]? = some c → c.name = name := by
    exact Repository.named_empty
deriving DecidableEq

namespace Repository

instance : Inhabited Repository := ⟨{}⟩

def lookup? (repository : Repository) (name : String) : Option ClassDef :=
  repository.classes[name]?

def contains (repository : Repository) (name : String) : Bool :=
  repository.classes.contains name

/-- Adds a class under its own name. -/
def add (repository : Repository) (c : ClassDef) : Repository where
  classes := repository.classes.insert c.name c
  named name other found := by
    rw [Std.ExtTreeMap.getElem?_insert] at found
    split at found
    case isTrue same => exact Option.some.inj found ▸ Std.LawfulEqCmp.compare_eq_iff_eq.mp same
    case isFalse => exact repository.named name other found

/-- Adds classes in order. -/
def addAll (repository : Repository) (classes : List ClassDef) : Repository :=
  classes.foldl add repository

/-- The names of all classes, in order. -/
def names (repository : Repository) : List String :=
  repository.classes.keys

/-- All classes, in the order of their names. -/
def toList (repository : Repository) : List ClassDef :=
  repository.classes.values

def size (repository : Repository) : Nat :=
  repository.classes.size

/-- The number of methods in all classes. -/
def methodCount (repository : Repository) : Nat :=
  repository.toList.foldr (fun c count => c.methods.length + count) 0

end Repository

end ArrayBounds
