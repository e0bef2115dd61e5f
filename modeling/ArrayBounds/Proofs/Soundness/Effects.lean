import ArrayBounds.Proofs.Soundness.Description

/-! # Effects keep descriptions

If a frame describes the values before an instruction that raises no exception, the effect of the
instruction on the frame is defined and describes the values behind it
(`ArrayBounds.Frame.Tracks.transfer`). An index that the check of an array access lets pass is in
bounds (`ArrayBounds.Frame.Tracks.inBounds`).

Rearrangements of the stack depend on which entries are wide. The analysis knows that from the types
that it has seen, so it is required that both sides agree on the form that a rearrangement takes.
-/

namespace ArrayBounds

open Program

/-! ## Rearrangements -/

namespace Program.StackOp

variable {α β : Type}

/-- A rearrangement treats entries alike, apart from their width. -/
theorem apply_map (op : StackOp) (isWide : β → Bool) (image : α → β) (stack : List α) :
    op.apply isWide (stack.map image) = (op.apply (fun entry => isWide (image entry)) stack).map
      (List.map image) := by
  -- No rearrangement looks further down than four entries.
  rcases stack with _ | ⟨a, _ | ⟨b, _ | ⟨c, _ | ⟨d, stack⟩⟩⟩⟩ <;> cases op <;>
    simp only [apply, List.map_cons, List.map_nil] <;> (repeat' split) <;> rfl

/-- A rearrangement makes up no entries. -/
theorem mem_of_apply {op : StackOp} {isWide : α → Bool} {stack stack' : List α}
    (success : op.apply isWide stack = some stack') : ∀ entry ∈ stack', entry ∈ stack := by
  rw [← List.attach_map_subtype_val stack, apply_map] at success
  obtain ⟨entries, -, rfl⟩ := Option.map_eq_some_iff.mp success
  intro entry member
  obtain ⟨held, -, rfl⟩ := List.mem_map.mp member
  exact held.property

end Program.StackOp

/-- A rearrangement moves the same entries of the frame and of the frame at run time. Other
instructions do not look at widths. -/
def Program.Instruction.SameForm (f : Frame) (c : Concrete) : Instruction → Prop
  | .stack op =>
    op.apply (fun entry => f.isWide entry.1) (f.stack.zip c.stack) =
      op.apply (fun entry => entry.2.isWide) (f.stack.zip c.stack)
  | _ => True

/-- The instruction is a call. -/
def Program.Instruction.isCall : Instruction → Bool
  | .invoke .. | .invokeDynamic .. => true
  | _ => false

namespace Frame

variable {f : Frame} {valuation : Valuation} {c : Concrete} {stack stack' : List Value}
  {slots : Slots}

/-- Stack instructions move variables as they move values. -/
private theorem Tracks.shuffle (tracks : f.Tracks valuation ⟨stack, slots⟩) {op : StackOp}
    (sameForm : Instruction.SameForm f ⟨stack, slots⟩ (.stack op))
    (rearranged : op.apply Value.isWide stack = some stack') :
    ∃ g, f.shuffle op = .ok g ∧ g.Tracks valuation ⟨stack', slots⟩ := by
  have same : stack = f.stack.map valuation := tracks.fits.stack
  have pairs : f.stack.zip stack = f.stack.map fun id => (id, valuation id) := by
    have zipped : (f.stack.map id).zip (f.stack.map valuation) = _ := List.zip_map'
    rwa [List.map_id, ← same] at zipped
  -- Both sides move the same entries, so they move the same variables.
  have form : op.apply f.isWide f.stack = op.apply (fun id => (valuation id).isWide) f.stack := by
    have first (ids : List VarId) : (ids.map fun id => (id, valuation id)).map Prod.fst = ids := by
      rw [List.map_map]
      exact List.map_id ids
    have moved : op.apply (fun entry => f.isWide entry.1) (f.stack.zip stack) =
        op.apply (fun entry => entry.2.isWide) (f.stack.zip stack) := sameForm
    rw [pairs, StackOp.apply_map, StackOp.apply_map] at moved
    refine Option.map_injective ?_ moved
    intro ids ids' images
    rw [← first ids, ← first ids']
    exact congrArg (List.map Prod.fst) images
  rw [same, StackOp.apply_map, ← form] at rearranged
  obtain ⟨ids, found, rfl⟩ := Option.map_eq_some_iff.mp rearranged
  exact ⟨_, shuffle_eq_ok_iff.mpr ⟨ids, found, rfl⟩,
    tracks.withStack
    (fun id member => tracks.wellFormed.stack id (StackOp.mem_of_apply found id member)) rfl⟩

/-! ## Array accesses -/

/-- An index that the check lets pass is in bounds. -/
theorem Tracks.inBounds (tracks : f.Tracks valuation c) (access : Access)
    (passes : (f.checkAccess access).2 = none) :
    0 ≤ (valuation access.index).magnitude ∧
      (valuation access.index).magnitude < (valuation access.array).magnitude := by
  unfold checkAccess at passes
  split at passes
  case isFalse => cases passes
  case isTrue safe =>
    cases found : f.vars[access.index]? with
    | none =>
        rw [found] at safe
        cases safe
    | some v =>
        rw [found] at safe
        obtain ⟨known, below⟩ := Bool.and_eq_true_iff.mp safe
        have holds := tracks.fits.vars access.index v found
        exact ⟨holds.sign.nonneg known,
          holds.below access.array (Std.ExtTreeSet.contains_iff_mem.mp below)⟩

/-- After an access that was in bounds the index counts as being in bounds. -/
theorem Tracks.checkAccess (tracks : f.Tracks valuation c) (access : Access)
    (old : access.array < f.nextId)
    (inBounds : (valuation access.index).magnitude < (valuation access.array).magnitude) :
    (f.checkAccess access).1.Tracks valuation c := by
  unfold Frame.checkAccess
  split
  · exact tracks
  · refine tracks.modify access.index _ ?_ ?_
    · intro v found target bound
      obtain member | member := bound
      · obtain same | member := Std.ExtTreeSet.mem_insert.mp member
        · exact Std.LawfulEqCmp.compare_eq_iff_eq.mp same ▸ old
        · exact tracks.wellFormed.bounds access.index v found target (.inl member)
      · exact tracks.wellFormed.bounds access.index v found target (.inr member)
    · exact fun v found => (tracks.fits.vars access.index v found).markBelow inBounds

/-- Reading from an array within its bounds is tracked. -/
private theorem Tracks.arrayLoad {index length : Int} {value : Value}
    (tracks : f.Tracks valuation ⟨.int index :: .reference length :: stack, slots⟩)
    (inBounds : index < length) (kind : ElementKind) :
    ∃ valuation' g unproved, f.arrayLoad kind = .ok (g, unproved) ∧
      g.Tracks valuation' ⟨value :: stack, slots⟩ := by
  obtain ⟨indexId, _, popped, indexValue, -, tracked⟩ := tracks.pop
  obtain ⟨arrayId, _, poppedAgain, arrayValue, old, tracked⟩ := tracked.pop
  have checked := tracked.checkAccess ⟨arrayId, indexId⟩ old
    (by rw [indexValue, arrayValue]; exact inBounds)
  obtain ⟨valuation', pushed⟩ := checked.pushUnbounded value
  exact ⟨valuation', _, _,
    Except.bind_eq_ok_iff.mpr ⟨_, popped, Except.bind_eq_ok_iff.mpr ⟨_, poppedAgain, rfl⟩⟩,
    pushed _ rfl rfl trivial⟩

/-- Writing to an array within its bounds is tracked. -/
private theorem Tracks.arrayStore {index length : Int} {value : Value}
    (tracks : f.Tracks valuation ⟨value :: .int index :: .reference length :: stack, slots⟩)
    (inBounds : index < length) :
    ∃ g unproved, f.arrayStore = .ok (g, unproved) ∧ g.Tracks valuation ⟨stack, slots⟩ := by
  obtain ⟨_, _, popped, -, -, tracked⟩ := tracks.pop
  obtain ⟨indexId, _, poppedAgain, indexValue, -, tracked⟩ := tracked.pop
  obtain ⟨arrayId, _, poppedLast, arrayValue, old, tracked⟩ := tracked.pop
  have checked := tracked.checkAccess ⟨arrayId, indexId⟩ old
    (by rw [indexValue, arrayValue]; exact inBounds)
  exact ⟨_, _, Except.bind_eq_ok_iff.mpr ⟨_, popped, Except.bind_eq_ok_iff.mpr ⟨_, poppedAgain,
    Except.bind_eq_ok_iff.mpr ⟨_, poppedLast, rfl⟩⟩⟩, checked⟩

/-! ## Conditions -/

/-- What a comparison with zero comes to at run time may be assumed. -/
theorem Tracks.assumeZero (tracks : f.Tracks valuation c) {id : VarId} {number : Int}
    (same : valuation id = .int number) (comparison : Comparison) :
    (f.assumeCondition (.zero comparison) [id] (comparison.compares number 0)).Tracks valuation
      c := by
  unfold assumeCondition
  dsimp only
  split
  case h_1 sign given =>
    obtain ⟨v, found, given⟩ := Option.bind_eq_some_iff.mp given
    have holds := (tracks.fits.vars id v found).sign
    rw [same] at holds
    refine tracks.assumeSign ?_
    rw [same]
    exact Sign.contains_given given (comparison.compares_side number 0) holds
  case h_2 => exact tracks

/-- What a comparison of two numbers comes to at run time may be assumed. -/
theorem Tracks.assumeInts (tracks : f.Tracks valuation c) {lhs rhs : VarId} {a b : Int}
    (left : valuation lhs = .int a) (right : valuation rhs = .int b) (comparison : Comparison) :
    (f.assumeCondition (.ints comparison) [lhs, rhs] (comparison.compares a b)).Tracks valuation
      c := by
  unfold assumeCondition
  dsimp only
  split
  case h_1 relation found =>
    refine tracks.assume ?_
    rw [left, right]
    exact Comparison.relates found (comparison.compares_side a b)
  case h_2 => exact tracks

/-! ## Other effects -/

/-- Operands may be replaced by a value that the new variable describes. -/
private theorem Tracks.replaceTop (values : List Value) {count : Nat}
    (tracks : f.Tracks valuation ⟨values ++ stack, slots⟩) (enough : values.length = count)
    (value : Value) :
    ∃ valuation' rest, ∀ v :
    Variable, v.below = ∅ → v.atMost = ∅ → v.sign.Contains value.magnitude →
      f.replaceTop count v = .ok (({ f with stack := rest } : Frame).push v) ∧
        (({ f with stack := rest } : Frame).push v).Tracks valuation' ⟨value :: stack, slots⟩ := by
  obtain ⟨_, rest, popped, -, -, tracked⟩ := tracks.popN values enough
  obtain ⟨valuation', pushed⟩ := tracked.pushUnbounded value
  exact ⟨valuation', rest, fun v below atMost sign =>
    ⟨Except.bind_eq_ok_iff.mpr ⟨_, popped, rfl⟩, pushed v below atMost sign⟩⟩

/-- Reading a field is tracked, whatever its value. -/
private theorem Tracks.getField (values : List Value) (isStatic : Bool) {descriptor : String}
    {type : FieldType} (tracks : f.Tracks valuation ⟨values ++ stack, slots⟩)
    (count : values.length = if isStatic then 0 else 1)
    (parsed : FieldType.parse descriptor = .ok type) (value : Value) :
    ∃ valuation' g, f.getField isStatic descriptor = .ok g ∧
      g.Tracks valuation' ⟨value :: stack, slots⟩ := by
  obtain ⟨_, _, popped, -, -, tracked⟩ := tracks.popN values count
  obtain ⟨valuation', pushed⟩ := tracked.pushUnbounded value
  unfold Frame.getField
  rw [parsed]
  exact ⟨valuation', _, Except.bind_eq_ok_iff.mpr ⟨_, popped, rfl⟩, pushed _ rfl rfl trivial⟩

/-- The length of an array is not negative, and at most the length of the array. -/
theorem Tracks.arrayLength {length : Int}
    (tracks : f.Tracks valuation ⟨.reference length :: stack, slots⟩) (isArray : 0 ≤ length) :
    ∃ valuation' g, f.arrayLength = .ok g ∧ g.Tracks valuation' ⟨.int length :: stack, slots⟩ := by
  obtain ⟨id, _, popped, same, old, tracked⟩ := tracks.pop
  let result : Variable :=
    { type := some .int, sign := .nonNegative, definedAt := f.pc, atMost := {id} }
  have only (target : VarId) (member : target ∈ result.atMost) : id = target := by
    simpa only [result, Std.ExtTreeSet.singleton_eq_insert, Std.ExtTreeSet.mem_insert,
      Std.LawfulEqCmp.compare_eq_iff_eq, Std.ExtTreeSet.not_mem_empty, or_false] using member
  have holds : result.Holds valuation (Value.int length).magnitude := by
    refine ⟨isArray, fun target member => absurd member Std.ExtTreeSet.not_mem_empty,
      fun target member => ?_⟩
    rw [← only target member, same]
    exact Int.le_refl length
  refine ⟨_, _, Except.bind_eq_ok_iff.mpr ⟨_, popped, rfl⟩, tracked.push (v := result) ?_ holds⟩
  rintro target (member | member)
  · exact absurd member Std.ExtTreeSet.not_mem_empty
  · exact only target member ▸ old

/-- Arithmetic is tracked. -/
private theorem Tracks.arithmetic {op : ArithmeticOp} {kind : NumericKind} {width : Nat}
    {lhs rhs result : Value} (tracks : f.Tracks valuation ⟨rhs :: lhs :: stack, slots⟩)
    (evaluated : op.evaluate width lhs.magnitude rhs.magnitude = some result.magnitude) :
    ∃ valuation' g, f.arithmetic op kind = .ok g ∧
      g.Tracks valuation' ⟨result :: stack, slots⟩ := by
  have binary : op ≠ .neg := by
    rintro rfl
    cases evaluated
  obtain ⟨rhsId, _, popped, rhsValue, -, tracked⟩ := tracks.pop
  obtain ⟨lhsId, rest, poppedAgain, lhsValue, -, tracked⟩ := tracked.pop
  obtain ⟨leftHolds, leftOld⟩ := tracked.holds_value lhsId
  obtain ⟨rightHolds, rightOld⟩ := tracked.holds_value rhsId
  rw [lhsValue] at leftHolds
  rw [rhsValue] at rightHolds
  have pushed :=
    tracked.push (fun target bound => bound.binary.elim (leftOld target) (rightOld target))
      (leftHolds.binary rightHolds evaluated kind f.pc)
  refine ⟨_, _, ?_, pushed⟩
  unfold Frame.arithmetic
  rw [if_neg binary]
  exact Except.bind_eq_ok_iff.mpr ⟨_, popped, Except.bind_eq_ok_iff.mpr ⟨_, poppedAgain, rfl⟩⟩

/-- Conversions are tracked. -/
private theorem Tracks.convert {source : NumericKind} {target : ConversionTarget} {number : Int}
    {operand result : Value} (tracks : f.Tracks valuation ⟨operand :: stack, slots⟩)
    (before : source.value? number = some operand)
    (evaluated : target.evaluate number = some result) :
    ∃ valuation' g, f.convert source target = .ok g ∧
      g.Tracks valuation' ⟨result :: stack, slots⟩ := by
  obtain ⟨id, _, popped, same, -, tracked⟩ := tracks.pop
  obtain ⟨holds, old⟩ := tracked.holds_value id
  rw [same, NumericKind.magnitude_of_value? before] at holds
  have pushed := tracked.push (fun target bound => old target bound.convert)
    (holds.convert before evaluated f.pc)
  exact ⟨_, _, Except.bind_eq_ok_iff.mpr ⟨_, popped, rfl⟩, pushed⟩

/-- Every instruction but a call keeps the description. -/
theorem Tracks.transfer {setting : Setting} {instruction : Instruction} {c' : Concrete}
    (tracks : f.Tracks valuation c) (executes : Executes setting instruction c c')
    (sameForm : instruction.SameForm f c) (inside : instruction.isCall = false) :
    ∃ valuation' g unproved, f.transfer instruction = .ok (g, unproved) ∧
      g.Tracks valuation' c' := by
  -- All effects but those of array accesses are effects on the frame alone.
  have plain {valuation' : Valuation} {g : Frame} {part : Except AnalysisError Frame}
      (done : part = .ok g)
      (tracked : g.Tracks valuation' c') : ∃ valuation' g unproved,
        (do return (← part, none) : Except AnalysisError (Frame × Option Access)) =
        .ok (g, unproved) ∧
          g.Tracks valuation' c' :=
    ⟨valuation', g, none, Except.bind_eq_ok_iff.mpr ⟨g, done, rfl⟩, tracked⟩
  have pushed {v : Variable} {value : Value} {stack : List Value} {slots : Slots}
      (before : c = ⟨stack, slots⟩)
      (after : c' = ⟨value :: stack, slots⟩) (below : v.below = ∅) (atMost : v.atMost = ∅)
      (sign : v.sign.Contains value.magnitude) : ∃ valuation' g unproved,
        (.ok (f.push v, none) : Except AnalysisError (Frame × Option Access)) = .ok (g, unproved) ∧
          g.Tracks valuation' c' := by
    subst before after
    obtain ⟨valuation', tracked⟩ := tracks.pushUnbounded value
    exact ⟨valuation', _, none, rfl, tracked v below atMost sign⟩
  have replaced (values : List Value) {v : Variable} {count : Nat} {value : Value}
      {stack : List Value} {slots : Slots}
      (before : c = ⟨values ++ stack, slots⟩) (after : c' = ⟨value :: stack, slots⟩)
      (enough : values.length = count)
      (below : v.below = ∅) (atMost : v.atMost = ∅) (sign : v.sign.Contains value.magnitude) :
      ∃ valuation' g unproved,
        (do return (← f.replaceTop count v, none) : Except AnalysisError (Frame × Option Access)) =
        .ok (g, unproved) ∧
          g.Tracks valuation' c' := by
    subst before after
    obtain ⟨_, _, done⟩ := tracks.replaceTop values enough value
    exact plain (done v below atMost sign).1 (done v below atMost sign).2
  cases executes with
  | nop | checkCast => exact ⟨valuation, f, none, rfl, tracks⟩
  | constInt => exact pushed rfl rfl rfl rfl (Sign.contains_ofInt _)
  | constLong => exact pushed rfl rfl rfl rfl (Sign.contains_ofInt _)
  | @constReference constant length stack slots reference =>
      cases constant with
      | null | string | classLiteral | unknown => exact pushed rfl rfl rfl rfl trivial
      | int | long | float | double => cases reference
  | newObject => exact pushed rfl rfl rfl rfl trivial
  | load found =>
      obtain ⟨valuation', tracked⟩ := tracks.load found
      exact ⟨valuation', _, none, rfl, tracked⟩
  | store =>
      obtain ⟨_, _, stored, tracked⟩ := tracks.store _
      exact plain stored tracked
  | increment found =>
      obtain ⟨valuation', tracked⟩ := tracks.increment found _
      exact ⟨valuation', _, none, rfl, tracked⟩
  | shuffle rearranged =>
      obtain ⟨_, shuffled, tracked⟩ := tracks.shuffle sameForm rearranged
      exact plain shuffled tracked
  | arrayLoad inBounds => exact tracks.arrayLoad inBounds.2 _
  | arrayStore inBounds =>
      obtain ⟨g, unproved, done, tracked⟩ := tracks.arrayStore inBounds.2
      exact ⟨valuation, g, unproved, done, tracked⟩
  | arrayLength isArray =>
      obtain ⟨_, _, done, tracked⟩ := tracks.arrayLength isArray
      exact plain done tracked
  | @newArray element length stack slots size =>
      exact replaced [.int length] rfl rfl rfl rfl rfl trivial
  | multiNewArray count sizes outermost =>
      exact replaced _ rfl rfl ((List.length_map _).trans count) rfl rfl trivial
  | @instanceOf className object answer stack slots boolean =>
      refine replaced [.reference object] rfl rfl rfl rfl rfl ?_
      simp only [Value.magnitude, Sign.Contains]
      omega
  | @compare a b stack slots =>
      exact replaced [.long b, .long a] rfl rfl rfl rfl rfl trivial
  | negate before after =>
      obtain ⟨_, _, popped, -, -, tracked⟩ := tracks.pop
      obtain ⟨_, tracked⟩ := tracked.pushUnbounded _
      exact plain (Except.bind_eq_ok_iff.mpr ⟨_, popped, rfl⟩) (tracked _ rfl rfl trivial)
  | arithmetic left right evaluated after =>
      rw [← NumericKind.magnitude_of_value? left, ← NumericKind.magnitude_of_value? right,
        ← NumericKind.magnitude_of_value? after] at evaluated
      obtain ⟨_, _, done, tracked⟩ := tracks.arithmetic evaluated
      exact plain done tracked
  | convert before after =>
      obtain ⟨_, _, done, tracked⟩ := tracks.convert before after
      exact plain done tracked
  | getStatic parsed =>
      obtain ⟨_, _, done, tracked⟩ := Tracks.getField [] true tracks rfl parsed _
      exact plain done tracked
  | @getField descriptor type object value stack slots parsed =>
      obtain ⟨_, _, done, tracked⟩ := Tracks.getField [.reference object] false tracks rfl parsed _
      exact plain done tracked
  | @putStatic descriptor value stack slots =>
      obtain ⟨_, _, popped, -, -, tracked⟩ := Tracks.popN [value] tracks rfl
      exact ⟨_, _, none, Except.bind_eq_ok_iff.mpr ⟨_, popped, rfl⟩, tracked⟩
  | @putField descriptor object value stack slots =>
      obtain ⟨_, _, popped, -, -, tracked⟩ := Tracks.popN [value, .reference object] tracks rfl
      exact ⟨_, _, none, Except.bind_eq_ok_iff.mpr ⟨_, popped, rfl⟩, tracked⟩
  | monitor =>
      obtain ⟨_, _, popped, -, -, tracked⟩ := tracks.pop
      exact ⟨_, _, none, Except.bind_eq_ok_iff.mpr ⟨_, popped, rfl⟩, tracked⟩
  | invoke | invokeDynamic => cases inside

end Frame

end ArrayBounds
