import ArrayBounds.Domain.Variable
import Std.Data.ExtTreeMap

/-! # Results of methods

The analysis of a method is identified by the class, the name and the descriptor of the method. The
memo holds the abstract results of the methods that have been analysed. A stored result has no
bounds, because bounds name variables of the frame that they were found in.
-/

namespace ArrayBounds

/-- The identity of a method. -/
structure MethodKey where
  className : String
  name : String
  descriptor : String
deriving DecidableEq, Repr, Inhabited

namespace MethodKey

/-- The full name of a method. -/
def text (key : MethodKey) : String :=
  s!"{key.className}.{key.name}{key.descriptor}"

/-- Keys are ordered by class, then by name, then by descriptor. -/
def order : MethodKey → MethodKey → Ordering :=
  compareLex (compareOn className) (compareLex (compareOn name) (compareOn descriptor))

instance : Ord MethodKey := ⟨order⟩

instance : Std.TransOrd MethodKey :=
  inferInstanceAs
    (Std.TransCmp
      (compareLex (compareOn className) (compareLex (compareOn name) (compareOn descriptor))))

instance : Std.LawfulEqOrd MethodKey where
  eq_of_compare {a b} same := by
    simp only [compare, order, compareLex, compareOn, Ordering.then_eq_eq] at same
    obtain ⟨sameClass, sameName, sameDescriptor⟩ := same
    cases a
    cases b
    simp only [mk.injEq]
    exact ⟨Std.LawfulEqOrd.eq_of_compare sameClass, Std.LawfulEqOrd.eq_of_compare sameName,
      Std.LawfulEqOrd.eq_of_compare sameDescriptor⟩

end MethodKey

/-- The abstract results of methods. -/
structure Memo where
  results : Std.ExtTreeMap MethodKey Variable := ∅
deriving DecidableEq

namespace Memo

instance : Inhabited Memo := ⟨{}⟩

def get? (memo : Memo) (key : MethodKey) : Option Variable :=
  memo.results[key]?

def contains (memo : Memo) (key : MethodKey) : Bool :=
  memo.results.contains key

/-- Stores a result without its bounds, in place of any earlier one. -/
def insert (memo : Memo) (key : MethodKey) (result : Variable) : Memo :=
  { results := memo.results.insert key result.clearBounds }

def size (memo : Memo) : Nat :=
  memo.results.size

end Memo

end ArrayBounds
