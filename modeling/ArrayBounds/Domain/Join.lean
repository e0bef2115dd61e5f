import ArrayBounds.Domain.Frame

/-! # Joins

Where two paths meet, the frame of one is joined into the frame of the other: position by position
over the stack, the local slots and the returned value. The receiving frame keeps its own numbers; a
variable of it keeps what the other side's variable in the same position also satisfies. Afterwards
the variables that no position holds any more are dropped.

A bound counts as shared if the other side names the same variable, or a variable that was last
stored to the same slot.
-/

namespace ArrayBounds.Frame

/-- The bound `target` of a variable of `f` is also one of the bounds `theirs` of a variable of
`g`. -/
def sharesBound (f g : Frame) (theirs : Bounds) (target : VarId) : Bool :=
  theirs.contains target ||
    ((f.slotOf target).isSome && theirs.any (g.slotOf · == f.slotOf target))

/-- The bounds of a variable of `f` that a variable of `g` shares. -/
def commonBounds (f g : Frame) (mine theirs : Bounds) : Bounds :=
  mine.filter (f.sharesBound g theirs)

/-- Weakens the variable `mine` of `f` to what the variable `theirs` of `g` satisfies too, and tells
whether that took something away. -/
def joinVariable (f g : Frame) (mine theirs : VarId) : Frame × Bool :=
  match f.vars[mine]?, g.vars[theirs]? with
  | some current, some incoming =>
    let below := f.commonBounds g current.below incoming.below
    let atMost := f.commonBounds g current.atMost incoming.atMost
    let changed := !decide (incoming.sign ≤ current.sign) ||
      below.size != current.below.size || atMost.size != current.atMost.size
    ({ f with
        vars :=
          f.vars.insert mine
            { current with sign := current.sign.join incoming.sign, below, atMost } },
      changed)
  | _, _ => (f, false)

/-- Joins variables pair by pair, and tells whether any of them changed. -/
def joinPairs (f g : Frame) (pairs : List (VarId × VarId)) : Frame × Bool :=
  pairs.foldl
    (fun (f, changed) (mine, theirs) =>
      let (f, weakened) := f.joinVariable g mine theirs
      (f, changed || weakened))
    (f, false)

/-- Joins the returned values. A frame that has not returned takes over the other side's value under
a new number and without bounds. -/
def joinReturned (f g : Frame) : Frame × Bool :=
  match f.returned, g.returned with
  | some mine, some theirs => f.joinVariable g mine theirs
  | none, some theirs =>
    match g.vars[theirs]? with
    | some v =>
      let (id, f) := f.alloc v.clearBounds
      ({ f with returned := some id }, true)
    | none => (f, false)
  | _, none => (f, false)

/-- The variables that some position of the frame holds. -/
def live (f : Frame) : Bounds :=
  Std.ExtTreeSet.ofList (f.stack ++ f.locals.toList ++ f.returned.toList)

/-- Drops every variable that no position holds, and every bound that names a dropped variable. -/
def collect (f : Frame) : Frame :=
  let live := f.live
  { f with
    vars := (f.vars.filter fun id _ => live.contains id).map fun _ v =>
      { v with below := v.below.filter live.contains, atMost := v.atMost.filter live.contains } }

/-- The positions that both frames have, bottom of the stack first and then the slots. -/
def commonPositions (f g : Frame) : List (VarId × VarId) :=
  f.stack.reverse.zip g.stack.reverse ++ f.locals.toList.zip g.locals.toList

/-- Joins `g` into `f`, and tells whether `f` lost anything it knew. Stacks and slots of different
length are joined as far as both reach. -/
def join (f g : Frame) : Frame × Bool :=
  let f := { f.drawAfter g with pc := max f.pc g.pc }
  let (f, changed) := f.joinPairs g (f.commonPositions g)
  let (f, changedReturn) := f.joinReturned g
  (f.collect, changed || changedReturn)

end ArrayBounds.Frame
