import ArrayBounds.Proofs.Domain.Closed
import ArrayBounds.Proofs.Domain.Slack

/-! # Numbers of variables

The numbers of new variables are drawn from one supply. Effects of instructions and joins draw from
it and give nothing back (`ArrayBounds.Frame.le_nextId_transfer`,
`ArrayBounds.Frame.le_nextId_join`), so a number that some frame knows stays below the counter of
every frame that comes from it.

Some operations have a rule for a number without a variable. In a closed frame there is no such
number at any place where an operation looks (`ArrayBounds.Frame.Finds`,
`ArrayBounds.Frame.JoinFinds`).
-/

namespace ArrayBounds.Frame

open Program

variable {f g h : Frame}

/-! ## The supply -/

/-- The counter shows the numbers drawn as long as they fit into 32 bits. -/
theorem toNat_counter : f.counter.toNat = f.nextId ↔ f.nextId < UInt32.size := by
  rw [counter, UInt32.toNat_ofNat', Nat.mod_eq_iff_lt (by decide)]

/-- The supply was large enough if the count of numbers fits into 32 bits. -/
theorem checkSupply_eq_ok_iff {result : Unit} :
    f.checkSupply = .ok result ↔ f.nextId < UInt32.size := by
  rw [← toNat_counter, checkSupply]
  split
  case isTrue fits => exact iff_of_true rfl fits
  case isFalse overflows => exact iff_of_false nofun overflows

/-- The check of the supply fails in one way only. -/
theorem checkSupply_eq_error {error : AnalysisError} (failure : f.checkSupply = .error error) :
    error = .numbersExhausted := by
  unfold checkSupply at failure
  split at failure
  · cases failure
  · exact (Except.error.inj failure).symm

/-- Changing a variable takes no number. -/
@[simp] theorem nextId_modify (f : Frame) (id : VarId) (change : Variable → Variable) :
    (f.modify id change).nextId = f.nextId := by
  rw [modify_eq]

/-- Each added slot takes a number. -/
private theorem nextId_addLocals (f : Frame) (count : Nat) :
    (f.addLocals count).nextId = f.nextId + count := by
  induction count generalizing f with
  | zero => rfl
  | succ count ih =>
      rw [addLocals, ih]
      exact Nat.add_right_comm f.nextId 1 count

private theorem le_nextId_ensureLocal (f : Frame) (slot : UInt16) :
    f.nextId ≤ (f.ensureLocal slot).nextId := by
  rw [ensureLocal, nextId_addLocals]
  exact Nat.le_add_right _ _

/-- A pop draws no number. -/
theorem nextId_pop {id : VarId} (success : f.pop = .ok (id, g)) : g.nextId = f.nextId := by
  obtain ⟨rest, -, rfl⟩ := pop_eq_ok_iff.mp success
  rfl

/-- Nor does a pop of several numbers. -/
theorem nextId_popN {count : Nat} {ids : List VarId} (success : f.popN count = .ok (ids, g)) :
    g.nextId = f.nextId := by
  obtain ⟨-, -, rfl⟩ := popN_eq_ok_iff.mp success
  rfl

/-- Checking an access takes no number. -/
@[simp] theorem nextId_checkAccess (f : Frame) (access : Access) :
    (f.checkAccess access).1.nextId = f.nextId := by
  unfold checkAccess
  split
  · rfl
  · exact nextId_modify f _ _

/-- Assuming a condition takes no number. -/
@[simp] theorem nextId_assumeCondition (f : Frame) (condition : Condition) (operands : List VarId)
    (holds : Bool) : (f.assumeCondition condition operands holds).nextId = f.nextId := by
  rw [assumeCondition_eq]

/-- Returning a value gives no number back. -/
theorem le_nextId_recordReturn (f : Frame) (id : VarId) :
    f.nextId ≤ (f.recordReturn id).nextId := by
  unfold recordReturn
  split
  · split
    · exact Nat.le_refl _
    · exact Nat.le_succ _
  · exact Nat.le_refl _

/-- Loading gives no numbers back. -/
private theorem le_nextId_load (f : Frame) (slot : UInt16) : f.nextId ≤ (f.load slot).nextId := by
  unfold load
  dsimp only
  split
  · exact f.le_nextId_ensureLocal slot
  · exact f.le_nextId_ensureLocal slot

private theorem le_nextId_increment (f : Frame) (slot : UInt16) (delta : Int) :
    f.nextId ≤ (f.increment slot delta).nextId :=
  Nat.le_succ_of_le (f.le_nextId_ensureLocal slot)

private theorem le_nextId_store {slot : UInt16} (success : f.store slot = .ok g) :
    f.nextId ≤ g.nextId := by
  obtain ⟨⟨id, popped⟩, popping, storing⟩ := Except.bind_eq_ok_iff.mp success
  rw [← Except.pure_eq_ok_iff.mp storing, ← nextId_pop popping]
  exact (popped.le_nextId_ensureLocal slot).trans_eq (nextId_modify _ _ _).symm

private theorem nextId_shuffle {op : StackOp} (success : f.shuffle op = .ok g) :
    g.nextId = f.nextId := by
  obtain ⟨stack, -, rfl⟩ := shuffle_eq_ok_iff.mp success
  rfl

/-- An effect that takes an operand and goes on from there. -/
theorem le_nextId_of_pop {α : Type} {next : VarId × Frame → Except AnalysisError α} {value : α}
    (success : f.pop >>= next = .ok value)
    (rest : ∀ id g, next (id, g) = .ok value → g.nextId ≤ h.nextId) : f.nextId ≤ h.nextId := by
  obtain ⟨⟨id, g⟩, popping, success⟩ := Except.bind_eq_ok_iff.mp success
  exact nextId_pop popping ▸ rest id g success

/-- Taking operands off the stack gives no numbers back. -/
private theorem le_nextId_of_popN {α : Type} {count : Nat}
    {next : List VarId × Frame → Except AnalysisError α} {value : α}
    (success : f.popN count >>= next = .ok value)
    (rest : ∀ ids g, next (ids, g) = .ok value → g.nextId ≤ h.nextId) : f.nextId ≤ h.nextId := by
  obtain ⟨⟨ids, g⟩, popping, success⟩ := Except.bind_eq_ok_iff.mp success
  exact nextId_popN popping ▸ rest ids g success

/-- An effect that ends by pushing a new variable. -/
theorem le_nextId_of_push {v : Variable}
    (success : (pure (f.push v) : Except AnalysisError Frame) = .ok g) : f.nextId ≤ g.nextId := by
  rw [← Except.pure_eq_ok_iff.mp success]
  exact Nat.le_succ _

private theorem le_nextId_replaceTop {count : Nat} {v : Variable}
    (success : f.replaceTop count v = .ok g) : f.nextId ≤ g.nextId :=
  le_nextId_of_popN success fun _ _ => le_nextId_of_push

/-- Arithmetic gives no numbers back. -/
private theorem le_nextId_arithmetic {op : ArithmeticOp} {kind : NumericKind}
    (success : f.arithmetic op kind = .ok g) : f.nextId ≤ g.nextId := by
  unfold arithmetic at success
  split at success
  · exact le_nextId_of_pop success fun _ _ => le_nextId_of_push
  · exact le_nextId_of_pop success fun _ _ success => le_nextId_of_pop success fun _ _ =>
      le_nextId_of_push

/-- Reading a field gives no numbers back. -/
private theorem le_nextId_getField {isStatic : Bool} {descriptor : String}
    (success : f.getField isStatic descriptor = .ok g) : f.nextId ≤ g.nextId := by
  refine le_nextId_of_popN success fun ids popped success => ?_
  dsimp only at success
  split at success
  · exact le_nextId_of_push success
  · cases success

/-- Reading from an array gives no numbers back. -/
private theorem le_nextId_arrayLoad {kind : ElementKind} {unproved : Option Access}
    (success : f.arrayLoad kind = .ok (g, unproved)) : f.nextId ≤ g.nextId := by
  refine le_nextId_of_pop success fun index once success =>
    le_nextId_of_pop success fun array twice success => ?_
  dsimp only at success
  generalize checking : twice.checkAccess { array, index } = checked at success
  rw [eq_of_return success, ← twice.nextId_checkAccess { array, index }, checking]
  exact Nat.le_succ _

/-- Writing to an array gives no numbers back. -/
private theorem le_nextId_arrayStore {unproved : Option Access}
    (success : f.arrayStore = .ok (g, unproved)) : f.nextId ≤ g.nextId := by
  refine le_nextId_of_pop success fun value once success =>
    le_nextId_of_pop success fun index twice success => ?_
  refine le_nextId_of_pop success fun array thrice success => ?_
  rw [eq_of_return success, nextId_checkAccess]

/-- Effects of instructions give no numbers back. -/
theorem le_nextId_transfer {instruction : Instruction} {unproved : Option Access}
    (success : f.transfer instruction = .ok (g, unproved)) : f.nextId ≤ g.nextId := by
  -- All effects but those of array accesses end in the same way, with the frame that the effect
  -- produced.
  have effect {part : Except AnalysisError Frame} (kept : ∀ h, part = .ok h → f.nextId ≤ h.nextId)
      (done : (do return (← part, none) : Except AnalysisError (Frame × Option Access)) =
        .ok (g, unproved)) :
      f.nextId ≤ g.nextId := by
    obtain ⟨h, made, returned⟩ := Except.bind_eq_ok_iff.mp done
    rw [eq_of_return returned]
    exact kept h made
  cases instruction with
  | arrayLoad kind => exact le_nextId_arrayLoad success
  | arrayStore kind => exact le_nextId_arrayStore success
  | store kind slot => exact effect (fun _ => le_nextId_store) success
  | stack op => exact effect (fun _ done => (nextId_shuffle done).ge) success
  | arrayLength | convert =>
      exact effect (fun _ done => le_nextId_of_pop done fun _ _ => le_nextId_of_push) success
  | newArray | multiNewArray | compare | instanceOf =>
      exact effect (fun _ => le_nextId_replaceTop) success
  | arithmetic op kind => exact effect (fun _ => le_nextId_arithmetic) success
  | getField isStatic descriptor => exact effect (fun _ => le_nextId_getField) success
  | switch | monitor =>
      refine le_nextId_of_pop success fun id popped success => ?_
      rw [eq_of_return success]
  | putField isStatic descriptor =>
      refine le_nextId_of_popN success fun ids popped success => ?_
      rw [eq_of_return success]
  | const | newObject =>
      rw [eq_of_return success]
      exact Nat.le_succ _
  | load kind slot =>
      rw [eq_of_return success]
      exact f.le_nextId_load slot
  | increment slot delta =>
      rw [eq_of_return success]
      exact f.le_nextId_increment slot _
  | _ => rw [eq_of_return success]

/-- A join draws after both frames. -/
theorem le_nextId_join (f g : Frame) : max f.nextId g.nextId ≤ (f.join g).1.nextId := by
  obtain ⟨h, merges, same⟩ := join_merges f g
  rw [same]
  change max f.nextId g.nextId ≤ h.nextId
  cases merges with
  | joined joined => exact joined.nextId_eq.ge
  | adopted joined fresh returned found => exact Nat.le_succ_of_le joined.nextId_eq.ge

/-! ## Look-ups -/

/-- The frame that receives another one in a join, with the given pairs of positions joined. -/
def receiving (f g : Frame) (pairs : List (VarId × VarId)) : Frame :=
  (({ f.drawAfter g with pc := max f.pc g.pc } : Frame).joinPairs g pairs).1

/-- As many slots are added as asked for. -/
theorem size_addLocals (f : Frame) (count : Nat) :
    (f.addLocals count).locals.size = f.locals.size + count := by
  induction count generalizing f with
  | zero => rfl
  | succ count ih =>
      rw [addLocals, ih]
      change (f.locals.push f.nextId).size + count = _
      rw [Array.size_push, Nat.add_right_comm, Nat.add_assoc]

/-- Common positions are positions of the other frame too. -/
theorem held_of_commonPositions_right {pair : VarId × VarId} (member : pair ∈ f.commonPositions g) :
    g.Held pair.2 := by
  rcases List.mem_append.mp member with onStack | inSlot
  · exact .inl (List.mem_reverse.mp (List.of_mem_zip onStack).2)
  · exact .inr (.inl (Array.mem_toList_iff.mp (List.of_mem_zip inSlot).2))

end ArrayBounds.Frame
