import ArrayBounds.Analysis.Error
import ArrayBounds.Domain.Variable
import Std.Data.ExtTreeMap

/-! # Frames

A frame is the abstract state of one path through a method: the operand stack, the local slots and
the value returned so far. All of them refer to variables by number. A value that was loaded from a
slot and the slot itself therefore share one variable, and what a test finds out about the loaded
value holds of the slot too.

At a branch the frame is forked, and where the paths meet again the frames are joined
(`ArrayBounds.Frame.join`). All forks of a frame draw the numbers of new variables from one supply;
the counter `nextId` says how much of it a frame knows to be used up.

The supply is that of a counter of 32 bits. Frames count on behind its end, so that two variables
never share a number; a method that takes so many variables has no result
(`ArrayBounds.Frame.checkSupply`).
-/

namespace ArrayBounds

/-- The abstract state of one path through a method. -/
structure Frame where
  vars : Std.ExtTreeMap VarId Variable := ∅
  /-- The operand stack; the head is the top. -/
  stack : List VarId := []
  locals : Array VarId := #[]
  /-- The position of the last instruction executed. -/
  pc : Nat := 0
  /-- The target of the last jump that has not been followed yet. -/
  pendingJump : Option Nat := none
  returned : Option VarId := none
  /-- The next number for a new variable. -/
  nextId : Nat := 0
deriving DecidableEq

namespace Frame

instance : Inhabited Frame := ⟨{}⟩

/-- A copy for one side of a branch. It starts without a pending jump. -/
def fork (f : Frame) : Frame :=
  { f with pendingJump := none }

/-- The frame, drawing new numbers after those that `g` has drawn. -/
def drawAfter (f g : Frame) : Frame :=
  { f with nextId := max f.nextId g.nextId }

/-- Adds a variable under a new number. -/
def alloc (f : Frame) (v : Variable) : VarId × Frame :=
  (f.nextId, { f with vars := f.vars.insert f.nextId v, nextId := f.nextId + 1 })

/-- What a counter of 32 bits shows once it has counted the numbers drawn. -/
def counter (f : Frame) : UInt32 :=
  UInt32.ofNat f.nextId

/-- Fails if the counter has overflowed. -/
def checkSupply (f : Frame) : Except AnalysisError Unit :=
  if f.counter.toNat = f.nextId then .ok () else .error .numbersExhausted

/-- Changes a variable in place; a number without variable is left alone. -/
def modify (f : Frame) (id : VarId) (change : Variable → Variable) : Frame :=
  match f.vars[id]? with
  | some v => { f with vars := f.vars.insert id (change v) }
  | none => f

/-- The slot that a variable was last stored to. -/
def slotOf (f : Frame) (id : VarId) : Option UInt16 :=
  f.vars[id]?.bind (·.slot)

/-- The variable with the given number, or an unknown value for a number without variable. -/
def value (f : Frame) (id : VarId) : Variable :=
  f.vars[id]?.getD (.unknown none f.pc)

/-! ## Operand stack -/

/-- Pushes a new variable. -/
def push (f : Frame) (v : Variable) : Frame :=
  let (id, f) := f.alloc v
  { f with stack := id :: f.stack }

/-- Pushes a variable that the frame holds already. -/
def pushId (f : Frame) (id : VarId) : Frame :=
  { f with stack := id :: f.stack }

/-- The error of an instruction that finds too few operands. -/
def underflow {α : Type} (f : Frame) : Except AnalysisError α :=
  .error (.stackUnderflow f.pc)

/-- Takes the top of the stack. -/
def pop (f : Frame) : Except AnalysisError (VarId × Frame) :=
  match f.stack with
  | [] => f.underflow
  | id :: rest => .ok (id, { f with stack := rest })

/-- Takes the `n` topmost entries, returned with the deepest first. -/
def popN (f : Frame) (n : Nat) : Except AnalysisError (List VarId × Frame) :=
  if f.stack.length < n then f.underflow
  else .ok ((f.stack.take n).reverse, { f with stack := f.stack.drop n })

/-- The entry `depth` places below the top. -/
def peek (f : Frame) (depth : Nat) : Except AnalysisError VarId :=
  match f.stack[depth]? with
  | some id => .ok id
  | none => f.underflow

/-- The variable takes two words. -/
def isWide (f : Frame) (id : VarId) : Bool :=
  f.vars[id]?.any Variable.isWide

/-- The number of words taken by the entry `depth` places below the top. -/
def categoryAt (f : Frame) (depth : Nat) : Except AnalysisError Nat := do
  let id ← f.peek depth
  return if f.isWide id then 2 else 1

/-- The variables on the stack, bottom first. -/
def operands (f : Frame) : List Variable :=
  f.stack.reverse.filterMap (f.vars[·]?)

/-! ## Local slots -/

/-- Adds `count` slots, each with an unknown value. -/
def addLocals (f : Frame) : Nat → Frame
  | 0 => f
  | count + 1 =>
    let slot := UInt16.ofNat f.locals.size
    let (id, f) := f.alloc { Variable.unknown none f.pc with slot := some slot }
    addLocals { f with locals := f.locals.push id } count

/-- Makes sure that the slot exists. -/
def ensureLocal (f : Frame) (slot : UInt16) : Frame :=
  f.addLocals (slot.toNat + 1 - f.locals.size)

/-- Lets an existing slot hold a variable. -/
def setLocal (f : Frame) (slot : UInt16) (id : VarId) : Frame :=
  { f with locals := f.locals.setIfInBounds slot.toNat id }

/-- The number of the variable in a slot. -/
def localId? (f : Frame) (slot : UInt16) : Option VarId :=
  f.locals[slot.toNat]?

/-- The variable in a slot. -/
def local? (f : Frame) (slot : UInt16) : Option Variable :=
  (f.localId? slot).bind (f.vars[·]?)

/-- Puts a new variable into a slot and returns its number. -/
def defineLocal (f : Frame) (slot : UInt16) (v : Variable) : VarId × Frame :=
  let (id, f) := (f.ensureLocal slot).alloc { v with slot := some slot }
  (id, f.setLocal slot id)

/-- Pushes the variable in a slot. -/
def load (f : Frame) (slot : UInt16) : Frame :=
  let f := f.ensureLocal slot
  match f.localId? slot with
  | some id => f.pushId id
  | none => f

/-- Pops a variable into a slot. The variable is shared, so it carries the slot from now on wherever
it is held. -/
def store (f : Frame) (slot : UInt16) : Except AnalysisError Frame := do
  let (id, f) ← f.pop
  let f := f.ensureLocal slot
  let f := f.modify id fun v =>
    { v with slot := some slot, origin := .localValue, definedAt := f.pc + 1 }
  return f.setLocal slot id

/-- Adds a constant to a slot. The slot gets a new variable, so copies on the stack keep the old
value. -/
def increment (f : Frame) (slot : UInt16) (delta : Int) : Frame :=
  let f := f.ensureLocal slot
  let next := match f.local? slot with
    | some v => v.increment delta f.pc
    | none => .unknown none f.pc
  let (id, f) := f.alloc { next with slot := some slot }
  f.setLocal slot id

/-! ## Returned value -/

/-- The variable returned so far. -/
def returnedValue? (f : Frame) : Option Variable :=
  f.returned.bind (f.vars[·]?)

/-- Records a returned value. If the path has returned before, the record covers both values and has
no bounds. -/
def recordReturn (f : Frame) (id : VarId) : Frame :=
  match f.returnedValue?, f.vars[id]? with
  | some previous, some latest =>
    if f.returned = some id then f
    else
      let (joined, f) := f.alloc { latest.clearBounds with sign := previous.sign.join latest.sign }
      { f with returned := some joined }
  | _, _ => { f with returned := some id }

/-! ## Refinement -/

/-- A relation between two values that holds on one side of a branch. -/
inductive Relation where
  | lt
  | le
  | gt
  | ge
  | eq
deriving DecidableEq, Repr, Inhabited

/-- The relation with its sides exchanged. -/
def Relation.flip : Relation → Relation
  | lt => gt
  | le => ge
  | gt => lt
  | ge => le
  | eq => eq

/-- What the left side gains from a relation. -/
def Relation.refine : Relation → Variable → Variable → Variable
  | lt => Variable.refineLt
  | le => Variable.refineLe
  | gt => Variable.refineGt
  | ge => Variable.refineGe
  | eq => Variable.refineEq

/-- Refines both sides of a relation that is known to hold. Each side is refined by the other as it
was before. -/
def assume (f : Frame) (lhs : VarId) (relation : Relation) (rhs : VarId) : Frame :=
  match f.vars[lhs]?, f.vars[rhs]? with
  | some left, some right =>
    let f := f.modify lhs (relation.refine · right)
    if lhs = rhs then f else f.modify rhs (relation.flip.refine · left)
  | _, _ => f

/-- Replaces the sign of a variable. -/
def assumeSign (f : Frame) (id : VarId) (sign : Sign) : Frame :=
  f.modify id ({ · with sign })

end Frame

end ArrayBounds
