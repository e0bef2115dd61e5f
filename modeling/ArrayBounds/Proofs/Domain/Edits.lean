import ArrayBounds.Proofs.Domain.Numbers
import Mathlib.Logic.Relation

/-! # What instructions do to frames

Whatever an instruction does to a frame, it does by a few edits: it rearranges the stack, adds
variables and slots, puts a variable into a slot, notes a jump, labels a variable with a slot, or
counts an index as being in bounds (`ArrayBounds.Frame.Edit`). What every edit keeps is kept by
every instruction (`ArrayBounds.Frame.edits_transfer`). So no instruction changes the sign of a
variable that is there or takes away a strict bound of it (`ArrayBounds.Frame.Enriches`), and it
changes what a slot holds only if it names the slot.
-/

namespace ArrayBounds

open Program

/-- The slot that an instruction gives another variable. -/
def Program.Instruction.written : Instruction → Option UInt16
  | .store _ slot | .increment slot _ => some slot
  | _ => none

namespace Frame

variable {f g h : Frame} {written : Option UInt16} {id : VarId} {v : Variable}

/-- A change that an instruction makes to a frame, where only the slot `written` may get another
variable. -/
inductive Edit (written : Option UInt16) (f : Frame) : Frame → Prop where
  | stack (stack : List VarId) : Edit written f { f with stack }
  | jump (pendingJump : Option Nat) : Edit written f { f with pendingJump }
  | alloc (v : Variable) : Edit written f (f.alloc v).2
  | room (v : Variable) : Edit written f { (f.alloc v).2 with locals := f.locals.push f.nextId }
  | place {slot : UInt16} (named : written = some slot) (id : VarId) :
      Edit written f (f.setLocal slot id)
  | label (id : VarId) (slot : UInt16) (definedAt : Nat) :
      Edit written f
        (f.modify id fun v => { v with slot := some slot, origin := .localValue, definedAt })
  | mark (id array : VarId) : Edit written f (f.modify id (·.markBelow array))

/-- Any number of edits. -/
abbrev Edits (written : Option UInt16) : Frame → Frame → Prop :=
  Relation.ReflTransGen (Edit written)

/-! ## Instructions -/

/-- A push is an edit. -/
theorem edits_push (f : Frame) (v : Variable) : f.Edits written (f.push v) :=
  .tail (.single (.alloc v)) (.stack _)

private theorem edits_pop (success : f.pop = .ok (id, g)) : f.Edits written g := by
  obtain ⟨rest, -, rfl⟩ := pop_eq_ok_iff.mp success
  exact .single (.stack rest)

private theorem edits_popN {count : Nat} {ids : List VarId}
    (success : f.popN count = .ok (ids, g)) : f.Edits written g := by
  obtain ⟨-, -, rfl⟩ := popN_eq_ok_iff.mp success
  exact .single (.stack _)

private theorem edits_addLocals (f : Frame) (count : Nat) :
    f.Edits written (f.addLocals count) := by
  induction count generalizing f with
  | zero => exact .refl
  | succ count ih => exact .head (.room _) (ih _)

/-- Loading is an edit. -/
private theorem edits_load (f : Frame) (slot : UInt16) : f.Edits written (f.load slot) := by
  unfold load
  dsimp only
  split
  · exact .tail (f.edits_addLocals _) (.stack _)
  · exact f.edits_addLocals _

/-- A store edits the frame and writes its slot. -/
theorem edits_store {slot : UInt16} (success : f.store slot = .ok g) : f.Edits (some slot) g := by
  obtain ⟨⟨id, popped⟩, popping, returned⟩ := Except.bind_eq_ok_iff.mp success
  obtain rfl := Except.pure_eq_ok_iff.mp returned
  exact .tail (.tail ((edits_pop popping).trans (popped.edits_addLocals _)) (.label id slot _))
    (.place rfl id)

private theorem edits_increment (f : Frame) (slot : UInt16) (delta : Int) :
    f.Edits (some slot) (f.increment slot delta) :=
  .tail (.tail (f.edits_addLocals _) (.alloc _)) (.place rfl _)

private theorem edits_shuffle {op : StackOp} (success : f.shuffle op = .ok g) :
    f.Edits written g := by
  obtain ⟨stack, -, rfl⟩ := shuffle_eq_ok_iff.mp success
  exact .single (.stack stack)

/-- The check of an access is an edit. -/
theorem edits_checkAccess (f : Frame) (access : Access) :
    f.Edits written (f.checkAccess access).1 := by
  unfold checkAccess
  split
  · exact .refl
  · exact .single (.mark _ _)

/-- Effects that take operands and push a result. -/
theorem edits_of_pop {next : VarId × Frame → Except AnalysisError Frame}
    (success : f.pop >>= next = .ok h) (rest : ∀ id g, next (id, g) = .ok h → g.Edits written h) :
    f.Edits written h := by
  obtain ⟨⟨id, g⟩, popping, success⟩ := Except.bind_eq_ok_iff.mp success
  exact (edits_pop popping).trans (rest id g success)

/-- What edits the frame behind a pop of several numbers edits it as a whole. -/
theorem edits_of_popN {count : Nat} {next : List VarId × Frame → Except AnalysisError Frame}
    (success : f.popN count >>= next = .ok h)
    (rest : ∀ ids g, next (ids, g) = .ok h → g.Edits written h) : f.Edits written h := by
  obtain ⟨⟨ids, g⟩, popping, success⟩ := Except.bind_eq_ok_iff.mp success
  exact (edits_popN popping).trans (rest ids g success)

private theorem edits_of_push (success : (pure (f.push v) : Except AnalysisError Frame) = .ok g) :
    f.Edits written g := by
  obtain rfl := Except.pure_eq_ok_iff.mp success
  exact f.edits_push v

private theorem edits_replaceTop {count : Nat} (success : f.replaceTop count v = .ok g) :
    f.Edits written g :=
  edits_of_popN success fun _ _ => edits_of_push

/-- Arithmetic is an edit. -/
private theorem edits_arithmetic {op : ArithmeticOp} {kind : NumericKind}
    (success : f.arithmetic op kind = .ok g) : f.Edits written g := by
  unfold arithmetic at success
  split at success
  · exact edits_of_pop success fun _ _ => edits_of_push
  · exact edits_of_pop success fun _ _ success => edits_of_pop success fun _ _ => edits_of_push

/-- Reading a field is an edit. -/
private theorem edits_getField {isStatic : Bool} {descriptor : String}
    (success : f.getField isStatic descriptor = .ok g) : f.Edits written g := by
  refine edits_of_popN success fun ids popped success => ?_
  dsimp only at success
  split at success
  · exact edits_of_push success
  · cases success

/-- Reading from an array is an edit. -/
private theorem edits_arrayLoad {kind : ElementKind} {unproved : Option Access}
    (success : f.arrayLoad kind = .ok (g, unproved)) : f.Edits written g := by
  obtain ⟨⟨index, once⟩, popping, success⟩ := Except.bind_eq_ok_iff.mp success
  obtain ⟨⟨array, twice⟩, popping', success⟩ := Except.bind_eq_ok_iff.mp success
  rw [eq_of_return success]
  exact (((edits_pop popping).trans (edits_pop popping')).trans (twice.edits_checkAccess _)).trans
    (edits_push _ _)

/-- Writing to an array is an edit. -/
private theorem edits_arrayStore {unproved : Option Access}
    (success : f.arrayStore = .ok (g, unproved)) : f.Edits written g := by
  obtain ⟨⟨value, once⟩, popping, success⟩ := Except.bind_eq_ok_iff.mp success
  obtain ⟨⟨index, twice⟩, popping', success⟩ := Except.bind_eq_ok_iff.mp success
  obtain ⟨⟨array, thrice⟩, popping'', success⟩ := Except.bind_eq_ok_iff.mp success
  rw [eq_of_return success]
  exact (((edits_pop popping).trans (edits_pop popping')).trans (edits_pop popping'')).trans
    (thrice.edits_checkAccess _)

/-- What an instruction does to a frame it does by edits. -/
theorem edits_transfer {instruction : Instruction} {unproved : Option Access}
    (success : f.transfer instruction = .ok (g, unproved)) : f.Edits instruction.written g := by
  have effect {part : Except AnalysisError Frame}
      (made : ∀ h, part = .ok h → f.Edits instruction.written h)
      (done : (do return (← part, none) : Except AnalysisError (Frame × Option Access)) =
        .ok (g, unproved)) :
      f.Edits instruction.written g := by
    obtain ⟨h, made', returned⟩ := Except.bind_eq_ok_iff.mp done
    rw [eq_of_return returned]
    exact made h made'
  cases instruction with
  | arrayLoad kind => exact edits_arrayLoad success
  | arrayStore kind => exact edits_arrayStore success
  | store kind slot => exact effect (fun _ => edits_store) success
  | stack op => exact effect (fun _ => edits_shuffle) success
  | arrayLength | convert =>
      exact effect (fun _ done => edits_of_pop done fun _ _ => edits_of_push) success
  | newArray | multiNewArray | compare | instanceOf =>
      exact effect (fun _ => edits_replaceTop) success
  | arithmetic op kind => exact effect (fun _ => edits_arithmetic) success
  | getField isStatic descriptor => exact effect (fun _ => edits_getField) success
  | switch | monitor =>
      obtain ⟨⟨id, popped⟩, popping, returned⟩ := Except.bind_eq_ok_iff.mp success
      rw [eq_of_return returned]
      exact edits_pop popping
  | putField isStatic descriptor =>
      obtain ⟨⟨ids, popped⟩, popping, returned⟩ := Except.bind_eq_ok_iff.mp success
      rw [eq_of_return returned]
      exact edits_popN popping
  | const | newObject =>
      rw [eq_of_return success]
      exact f.edits_push _
  | load kind slot =>
      rw [eq_of_return success]
      exact f.edits_load slot
  | increment slot delta =>
      rw [eq_of_return success]
      exact f.edits_increment slot _
  | goto target =>
      rw [eq_of_return success]
      exact .single (.jump _)
  | _ =>
      rw [eq_of_return success]

/-! ## What edits keep -/

/-- Every variable of `f` has the same sign in `g` and no strict bound less, and no number is given
back. -/
structure Enriches (f g : Frame) : Prop where
  next : f.nextId ≤ g.nextId
  vars : ∀ id < f.nextId,
    Option.Rel (fun v w => w.sign = v.sign ∧ ∀ target ∈ v.below, target ∈ w.below)
    f.vars[id]? g.vars[id]?

/-- New variables take nothing away from old ones. -/
theorem Enriches.of_vars (next : f.nextId ≤ g.nextId)
    (same : ∀ id < f.nextId, g.vars[id]? = f.vars[id]?) : f.Enriches g := by
  refine ⟨next, fun id drawn => ?_⟩
  rw [same id drawn]
  cases f.vars[id]? with
  | none => exact .none
  | some v => exact .some ⟨rfl, fun _ member => member⟩

/-- Nothing is taken away where nothing happens. -/
theorem Enriches.refl (f : Frame) : f.Enriches f :=
  .of_vars (Nat.le_refl _) fun _ _ => rfl

/-- Enrichments can be put together. -/
theorem Enriches.trans (first : f.Enriches g) (second : g.Enriches h) : f.Enriches h := by
  refine ⟨Nat.le_trans first.next second.next, fun id drawn => ?_⟩
  have left := first.vars id drawn
  have right := second.vars id (Nat.lt_of_lt_of_le drawn first.next)
  generalize f.vars[id]? = before at left ⊢
  generalize g.vars[id]? = between at left right
  generalize h.vars[id]? = after at right ⊢
  cases left with
  | none =>
      cases right with
      | none => exact .none
  | some here =>
      cases right with
      | some there =>
          exact .some
            ⟨there.1.trans here.1, fun target member => there.2 target (here.2 target member)⟩

/-- A change that keeps signs and strict bounds enriches the frame. -/
private theorem Enriches.modify (id : VarId) {change : Variable → Variable}
    (sign : ∀ v, (change v).sign = v.sign)
    (below : ∀ v, ∀ target ∈ v.below, target ∈ (change v).below) :
    f.Enriches (f.modify id change) := by
  refine ⟨Nat.le_of_eq (nextId_modify f id change).symm, fun other _ => ?_⟩
  rw [vars_modify]
  split
  case isTrue same =>
    rw [same]
    cases f.vars[other]? with
    | none => exact .none
    | some v => exact .some ⟨sign v, below v⟩
  case isFalse =>
    cases f.vars[other]? with
    | none => exact .none
    | some v => exact .some ⟨rfl, fun _ member => member⟩

/-- Each edit enriches the frame. -/
private theorem Edit.enriches (edit : f.Edit written g) : f.Enriches g := by
  cases edit with
  | stack | jump | place => exact .of_vars (Nat.le_refl _) fun _ _ => rfl
  | alloc v | room v =>
      refine .of_vars (Nat.le_succ _) fun id drawn => ?_
      exact (vars_alloc f v id).trans (if_neg (Nat.ne_of_gt drawn))
  | label id => exact .modify id (fun _ => rfl) fun _ _ member => member
  | mark id array =>
      exact .modify id (fun _ => rfl) fun v _ member => Std.ExtTreeSet.mem_insert.mpr (.inr member)

/-- Edits take nothing away that is known about old variables. -/
theorem Edits.enriches (edits : f.Edits written g) : f.Enriches g := by
  induction edits with
  | refl => exact .refl f
  | tail _ edit ih => exact ih.trans edit.enriches

/-- The sign of a variable that is there stays. -/
theorem Enriches.exists_var (enriches : f.Enriches g) (drawn : id < f.nextId)
    (found : f.vars[id]? = some v) :
    ∃ w, g.vars[id]? = some w ∧ w.sign = v.sign ∧ ∀ target ∈ v.below, target ∈ w.below := by
  have related := enriches.vars id drawn
  rw [found] at related
  generalize g.vars[id]? = after at related
  cases related with
  | some kept => exact ⟨_, rfl, kept⟩

/-- A slot that is not written keeps its variable. -/
theorem Edit.locals_eq (edit : f.Edit written g) {i : Nat}
    (kept : ∀ slot, written = some slot → slot.toNat ≠ i) (held : f.locals[i]? = some id) :
    g.locals[i]? = some id := by
  cases edit with
  | stack | jump | alloc => exact held
  | room v =>
      change (f.locals.push f.nextId)[i]? = some id
      rw [Array.getElem?_push_lt (Array.getElem?_eq_some_iff.mp held).1]
      exact (Array.getElem?_eq_getElem _).symm.trans held
  | @place slot named other =>
      change (f.locals.setIfInBounds slot.toNat other)[i]? = some id
      rw [Array.getElem?_setIfInBounds_ne (kept slot named), held]
  | label | mark =>
      rw [modify_eq]
      exact held

/-- Edits leave slots alone that they do not write. -/
theorem Edits.locals_eq (edits : f.Edits written g) {i : Nat}
    (kept : ∀ slot, written = some slot → slot.toNat ≠ i) (held : f.locals[i]? = some id) :
    g.locals[i]? = some id := by
  induction edits with
  | refl => exact held
  | tail _ edit ih => exact edit.locals_eq kept ih

private theorem Edit.returned_eq (edit : f.Edit written g) : g.returned = f.returned := by
  cases edit with
  | stack | jump | alloc | room | place => rfl
  | label | mark => rw [modify_eq]

/-- Edits leave the returned value alone. -/
theorem Edits.returned_eq (edits : f.Edits written g) : g.returned = f.returned := by
  induction edits with
  | refl => rfl
  | tail _ edit ih => exact edit.returned_eq.trans ih

end Frame

end ArrayBounds
