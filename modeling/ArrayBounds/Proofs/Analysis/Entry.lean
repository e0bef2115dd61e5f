import ArrayBounds.Analysis.Method
import ArrayBounds.Proofs.Soundness.Description
import Mathlib.Data.List.Nodup

/-! # The slots at the start of a method

A method starts with its receiver, if it has one, and its parameters in the slots that the calling
convention gives them: each behind the widths of those before it. Slots are made on demand. One that
is skipped because it is the second half of a wide parameter gets a placeholder, and a parameter
replaces the placeholder that was made for its own slot. The proofs follow these steps with a list
of the types that the slots have so far (`ArrayBounds.Frame.Arranged`); the list that the parameters
lead to (`ArrayBounds.MethodDescriptor.slotTypes`) does not know about the steps. The result is
`ArrayBounds.Interpreter.entryFrame_initialFrame`.
-/

namespace ArrayBounds

open Program

namespace Frame

variable {f : Frame} {types : List (Option FieldType)} {type : Option FieldType} {slot : Nat}

/-- The slot holds a value of the given type about which nothing else is known, and which belongs to
this slot. -/
def Untouched (f : Frame) (slot : Nat) (type : Option FieldType) : Prop :=
  ∃ position : UInt16, position.toNat = slot ∧
    f.local? position = some { Variable.unknown type 0 with slot := some position }

/-- The slots hold untouched values of the given types, each under a number of its own. Nothing else
has happened yet. -/
structure Arranged (f : Frame) (types : List (Option FieldType)) : Prop where
  size : f.locals.size = types.length
  untouched : ∀ slot type, types[slot]? = some type → f.Untouched slot type
  nodup : f.locals.toList.Nodup
  older : ∀ id ∈ f.locals, id < f.nextId
  pc : f.pc = 0
  stack : f.stack = []
  returned : f.returned = none

/-- The frame without slots is arranged for no parameters. -/
private theorem Arranged.empty : ({} : Frame).Arranged [] where
  size := rfl
  untouched slot type found := by simp at found
  nodup := List.nodup_nil
  older id member := by simp at member
  pc := rfl
  stack := rfl
  returned := rfl

/-- A new variable leaves the other slots untouched. -/
theorem Untouched.transport {g : Frame} (untouched : f.Untouched slot type)
    (older : ∀ id ∈ f.locals, id < f.nextId) (same : g.locals[slot]? = f.locals[slot]?)
    (vars : ∀ id < f.nextId, g.vars[id]? = f.vars[id]?) : g.Untouched slot type := by
  obtain ⟨position, rfl, found⟩ := untouched
  obtain ⟨id, here, value⟩ := Option.bind_eq_some_iff.mp found
  refine ⟨position, rfl, Option.bind_eq_some_iff.mpr ⟨id, same.trans here, ?_⟩⟩
  rw [vars id (older id (Array.mem_of_getElem? here)), value]

private theorem untouched_of_held {position : UInt16} {id : VarId}
    (held : f.locals[position.toNat]? = some id)
    (found : f.vars[id]? = some { Variable.unknown type 0 with slot := some position }) :
    f.Untouched position.toNat type :=
  ⟨position, rfl, Option.bind_eq_some_iff.mpr ⟨id, held, found⟩⟩

private theorem vars_alloc_self (f : Frame) (v : Variable) :
    (f.alloc v).2.vars[f.nextId]? = some v := by
  rw [vars_alloc, if_pos rfl]

private theorem vars_alloc_of_lt {v : Variable} {id : VarId} (old : id < f.nextId) :
    (f.alloc v).2.vars[id]? = f.vars[id]? := by
  rw [vars_alloc, if_neg (Nat.ne_of_gt old)]

/-- A further slot is arranged behind the others. -/
private theorem Arranged.push (arranged : f.Arranged types) {position : UInt16}
    (here : position.toNat = types.length) :
    { (f.alloc { Variable.unknown none 0 with slot := some position }).2 with
      locals := f.locals.push f.nextId }.Arranged (types ++ [none]) where
  size := by rw [Array.size_push, arranged.size, List.length_append, List.length_singleton]
  untouched slot type found := by
    rw [List.getElem?_append] at found
    split at found
    case isTrue below =>
      refine (arranged.untouched slot type found).transport arranged.older ?_ fun id old =>
        vars_alloc_of_lt old
      have differ : slot ≠ f.locals.size := arranged.size ▸ Nat.ne_of_lt below
      change (f.locals.push f.nextId)[slot]? = f.locals[slot]?
      rw [Array.getElem?_push, if_neg differ]
    case isFalse behind =>
      rw [List.getElem?_singleton] at found
      split at found
      case isTrue first =>
        obtain rfl := Option.some.inj found
        obtain rfl : position.toNat = slot := by omega
        refine untouched_of_held ?_ (f.vars_alloc_self _)
        change (f.locals.push f.nextId)[position.toNat]? = some f.nextId
        rw [Array.getElem?_push, if_pos (here.trans arranged.size.symm)]
      case isFalse => cases found
  nodup := by
    rw [Array.toList_push, List.nodup_append]
    refine ⟨arranged.nodup, List.nodup_singleton _, fun id member other single => ?_⟩
    rw [List.mem_singleton.mp single]
    exact Nat.ne_of_lt (arranged.older id (Array.mem_toList_iff.mp member))
  older id member := by
    obtain member | rfl := Array.mem_push.mp member
    · exact Nat.lt_succ_of_lt (arranged.older id member)
    · exact Nat.lt_succ_self _
  pc := arranged.pc
  stack := arranged.stack
  returned := arranged.returned

/-- Slots of which nothing is known may be added behind the others. -/
private theorem Arranged.addLocals (arranged : f.Arranged types) (count : Nat)
    (fits : types.length + count ≤ UInt16.size) :
    (f.addLocals count).Arranged (types ++ List.replicate count none) := by
  induction count generalizing f types with
  | zero => rwa [List.replicate_zero, List.append_nil]
  | succ count ih =>
      have here : (UInt16.ofNat f.locals.size).toNat = types.length := by
        rw [arranged.size, UInt16.toNat_ofNat_of_lt' (by omega)]
      have pushed :=
        ih (arranged.push here) (by rw [List.length_append, List.length_singleton]; omega)
      rw [Frame.addLocals, arranged.pc]
      rwa [List.append_assoc] at pushed

/-- A slot may be given a value of a known type. -/
private theorem Arranged.set (arranged : f.Arranged types) {position : UInt16}
    (within : position.toNat < types.length) (type : Option FieldType) :
    ((f.alloc { Variable.unknown type 0 with slot := some position }).2.setLocal position
      f.nextId).Arranged (types.set position.toNat type) where
  size := by
    rw [List.length_set, ← arranged.size]
    exact Array.size_setIfInBounds
  untouched slot type' found := by
    rw [List.getElem?_set] at found
    split at found
    case isTrue same =>
      obtain rfl : type = type' := by simpa [same ▸ within] using found
      subst same
      refine untouched_of_held ?_ (f.vars_alloc_self _)
      exact Array.getElem?_setIfInBounds_self_of_lt (arranged.size ▸ within)
    case isFalse differ =>
      refine (arranged.untouched slot type' found).transport arranged.older ?_ fun id old =>
        vars_alloc_of_lt old
      exact Array.getElem?_setIfInBounds_ne differ
  nodup := by
    have new : f.nextId ∉ f.locals.toList :=
      fun member => Nat.lt_irrefl _ (arranged.older _ (Array.mem_toList_iff.mp member))
    change (f.locals.setIfInBounds position.toNat f.nextId).toList.Nodup
    rw [Array.toList_setIfInBounds]
    exact arranged.nodup.set new
  older id member := by
    obtain member | rfl := Array.mem_or_eq_of_mem_setIfInBounds member
    · exact Nat.lt_succ_of_lt (arranged.older id member)
    · exact Nat.lt_succ_self _
  pc := arranged.pc
  stack := arranged.stack
  returned := arranged.returned

/-- A new variable in a slot behind all others. The slots that are skipped get placeholders. -/
theorem Arranged.define (arranged : f.Arranged types) {position : UInt16} {gap : Nat}
    (behind : types.length + gap = position.toNat) (type : FieldType) :
    (f.defineLocal position (.unknown (some type) 0)).2.Arranged
      (types ++ List.replicate gap none ++ [some type]) := by
  have small : position.toNat < UInt16.size := position.toNat_lt
  have wanted : position.toNat + 1 - f.locals.size = gap + 1 := by rw [arranged.size]; omega
  have room : (f.ensureLocal position).Arranged (types ++ List.replicate (gap + 1) none) := by
    rw [ensureLocal, wanted]
    exact arranged.addLocals (gap + 1) (by omega)
  have within : position.toNat < (types ++ List.replicate (gap + 1) none).length := by
    rw [List.length_append, List.length_replicate]
    omega
  have last : (types ++ List.replicate (gap + 1) none).set position.toNat (some type) =
      types ++ List.replicate gap none ++ [some type] := by
    rw [← behind, List.replicate_succ', ← List.append_assoc, List.set_append_right _ _ (by simp)]
    simp
  exact last ▸ room.set within (some type)

end Frame

/-! ## Parameters -/

namespace MethodDescriptor

/-- The types of the slots that values of the given types take. Only the first slot of a value has
its type. -/
def slotTypes (types : List FieldType) : List (Option FieldType) :=
  types.flatMap fun type => some type :: List.replicate (type.width - 1) none

/-- The number of slots in front of a parameter, the receiver not counted: the widths of all earlier
parameters. -/
def slotsBefore (descriptor : MethodDescriptor) (index : Nat) : Nat :=
  { descriptor with parameters := descriptor.parameters.take index }.parameterSlots

private theorem one_le_width (type : FieldType) : 1 ≤ type.width := by
  unfold FieldType.width
  split <;> decide

private theorem slotTypes_cons (type : FieldType) (types : List FieldType) :
    slotTypes (type :: types) = some type ::
      (List.replicate (type.width - 1) none ++ slotTypes types) :=
  List.flatMap_cons

private theorem slotTypes_append (types others : List FieldType) :
    slotTypes (types ++ others) = slotTypes types ++ slotTypes others :=
  List.flatMap_append

/-- A parameter takes as many slots as it is wide. -/
private theorem length_slotTypes_cons (type : FieldType) (types : List FieldType) :
    (slotTypes (type :: types)).length = type.width + (slotTypes types).length := by
  have wide := one_le_width type
  rw [slotTypes_cons, List.length_cons, List.length_append, List.length_replicate]
  omega

/-- Parameters take the sum of their widths. -/
private theorem length_slotTypes (types : List FieldType) :
    (slotTypes types).length = types.foldr (fun type slots => type.width + slots) 0 := by
  induction types with
  | nil => rfl
  | cons type types ih => rw [length_slotTypes_cons, ih, List.foldr_cons]

/-- Behind the first value the slots are those of the other values. -/
theorem getElem?_slotTypes_cons (type : FieldType) (types : List FieldType) (slot : Nat) :
    (slotTypes (type :: types))[type.width + slot]? = (slotTypes types)[slot]? := by
  have wide := one_le_width type
  have far : type.width + slot = type.width - 1 + slot + 1 := by omega
  rw [slotTypes_cons, far, List.getElem?_cons_succ, List.getElem?_append_right (by simp),
    List.length_replicate, Nat.add_sub_cancel_left]

/-- A value starts behind the slots of those before it. -/
theorem getElem?_slotTypes {types : List FieldType} {index : Nat} {type : FieldType}
    (found : types[index]? = some type) :
    (slotTypes types)[(slotTypes (types.take index)).length]? = some (some type) := by
  induction types generalizing index with
  | nil => simp at found
  | cons first types ih =>
      cases index with
      | zero =>
          obtain rfl : first = type := Option.some.inj found
          rfl
      | succ index =>
          rw [List.take_succ_cons, length_slotTypes_cons, getElem?_slotTypes_cons]
          exact ih found

/-- A slot with a type is the first one of a value. -/
theorem exists_of_slotTypes {types : List FieldType} {slot : Nat} {type : FieldType}
    (found : (slotTypes types)[slot]? = some (some type)) :
    ∃ index < types.length, slot = (slotTypes (types.take index)).length := by
  induction types generalizing slot with
  | nil => simp [slotTypes] at found
  | cons first types ih =>
      rcases Nat.lt_or_ge slot first.width with inside | behind
      · refine ⟨0, Nat.succ_pos _, ?_⟩
        cases slot with
        | zero => rfl
        | succ slot =>
            rw [slotTypes_cons, List.getElem?_cons_succ, List.getElem?_append_left (by simp; omega)]
              at found
            simp [List.getElem?_replicate] at found
      · obtain ⟨slot, rfl⟩ := Nat.exists_eq_add_of_le behind
        rw [getElem?_slotTypes_cons] at found
        obtain ⟨index, below, rfl⟩ := ih found
        exact ⟨index + 1, Nat.succ_lt_succ below, by
          rw [List.take_succ_cons, length_slotTypes_cons]⟩

end MethodDescriptor

open MethodDescriptor (slotTypes)

namespace Interpreter

variable {f : Frame} {types : List (Option FieldType)}

private theorem toNat_nextSlot {slot : UInt16} {width : Nat} (fits : slot.toNat + width ≤ 0xFFFF) :
    (nextSlot slot width).toNat = slot.toNat + width := by
  rw [nextSlot, Nat.min_eq_left fits, UInt16.toNat_ofNat_of_lt' (Nat.lt_succ_of_le fits)]

/-- The parameters take the slots behind `types` and a gap, which is the second half of a wide
value. -/
theorem defineParameters_arranged (arranged : f.Arranged types) {slot : UInt16} {gap : Nat}
    (behind : types.length + gap = slot.toNat) {parameters : List FieldType}
    (fits : slot.toNat + (slotTypes parameters).length ≤ 0xFFFF) :
    ∃ types' gap', (defineParameters f slot parameters).Arranged types' ∧
      types' ++ List.replicate gap' none = types ++ List.replicate gap none ++
        slotTypes parameters := by
  induction parameters generalizing f types slot gap with
  | nil => exact ⟨types, gap, arranged, (List.append_nil _).symm⟩
  | cons type parameters ih =>
      have wide := MethodDescriptor.one_le_width type
      rw [MethodDescriptor.length_slotTypes_cons] at fits
      have next : (nextSlot slot type.width).toNat = slot.toNat + type.width :=
        toNat_nextSlot (by omega)
      have behind' : (types ++ List.replicate gap none ++ [some type]).length + (type.width - 1) =
          (nextSlot slot type.width).toNat := by
        rw [List.length_append, List.length_append, List.length_replicate,
          List.length_singleton, next]
        omega
      obtain ⟨types', gap', arranged', same⟩ := ih (arranged.define behind type) behind' (by omega)
      refine ⟨types', gap', arranged', same.trans ?_⟩
      rw [MethodDescriptor.slotTypes_cons]
      simp

end Interpreter

/-! ## The start -/

namespace Body

/-- The first slot for a parameter. A receiver is in front of it. -/
def firstSlot (body : Body) : Nat :=
  if body.method.access.isStatic then 0 else 1

/-- The type of the receiver, for a method that has one. -/
def receiver (body : Body) : List FieldType :=
  if body.method.access.isStatic then [] else [.object body.owner.name]

/-- The receiver and the parameters take the sum of their widths. -/
private theorem length_slotTypes (body : Body) (parameters : List FieldType) :
    (slotTypes (body.receiver ++ parameters)).length =
      body.firstSlot + parameters.foldr (fun type slots => type.width + slots) 0 := by
  have first : (slotTypes body.receiver).length = body.firstSlot := by
    unfold receiver firstSlot
    split <;> rfl
  rw [MethodDescriptor.slotTypes_append, List.length_append, first,
    MethodDescriptor.length_slotTypes]

/-- Only the first of the receiver and the parameters can be the receiver. -/
theorem eq_zero_of_lt_receiver {body : Body} {index : Nat} (inside : index < body.receiver.length) :
    body.method.access.isStatic = false ∧ index = 0 := by
  unfold receiver at inside
  split at inside
  case isTrue => exact absurd inside (Nat.not_lt_zero _)
  case isFalse isInstance => exact ⟨Bool.eq_false_iff.mpr isInstance, Nat.lt_one_iff.mp inside⟩

end Body

namespace Interpreter

/-- What a method finds at its start: the receiver in the first slot, each parameter behind the
widths of the earlier ones, and placeholders between them. -/
structure EntryFrame (body : Body) (descriptor : MethodDescriptor) (f : Frame) : Prop where
  receiver : body.method.access.isStatic = false → f.Untouched 0 (some (.object body.owner.name))
  parameter : ∀ index type, descriptor.parameters[index]? = some type →
    f.Untouched (body.firstSlot + descriptor.slotsBefore index) (some type)
  between : ∀ slot < f.locals.size, (body.method.access.isStatic = false → slot ≠ 0) →
    (∀ index < descriptor.parameters.length, slot ≠ body.firstSlot + descriptor.slotsBefore index) →
    f.Untouched slot none
  nodup : f.locals.toList.Nodup
  size : f.locals.size ≤ body.firstSlot + descriptor.parameterSlots
  stack : f.stack = []
  returned : f.returned = none

/-- The receiver is put into its slot like a parameter in front of the others. -/
theorem initialFrame_eq (body : Body) (descriptor : MethodDescriptor) :
    initialFrame body descriptor =
      defineParameters {} 0 (body.receiver ++ descriptor.parameters) := by
  unfold initialFrame Body.receiver
  split
  · rfl
  · rfl

/-- The slots of the initial frame are those of the receiver and the parameters, up to the last one
that has a type. -/
theorem exists_arranged_initialFrame {body : Body} {descriptor : MethodDescriptor}
    (fits : body.firstSlot + descriptor.parameterSlots ≤ 0xFFFF) :
    ∃ types gap, (initialFrame body descriptor).Arranged types ∧
      slotTypes (body.receiver ++ descriptor.parameters) = types ++ List.replicate gap none := by
  have room : (0 : UInt16).toNat + (slotTypes (body.receiver ++ descriptor.parameters)).length ≤
      0xFFFF := by
    rw [body.length_slotTypes]
    exact (Nat.zero_add _).trans_le fits
  have behind : ([] : List (Option FieldType)).length + 0 = (0 : UInt16).toNat := rfl
  obtain ⟨types, gap, arranged, same⟩ := defineParameters_arranged Frame.Arranged.empty behind room
  exact ⟨types, gap, initialFrame_eq body descriptor ▸ arranged, same.symm⟩

/-- At its start a method finds the receiver and the parameters in their slots. -/
theorem entryFrame_initialFrame (body : Body) (descriptor : MethodDescriptor)
    (fits : body.firstSlot + descriptor.parameterSlots ≤ 0xFFFF) :
    EntryFrame body descriptor (initialFrame body descriptor) := by
  obtain ⟨types, gap, arranged, same⟩ := exists_arranged_initialFrame fits
  have placed {index : Nat} {type : FieldType}
      (found : (body.receiver ++ descriptor.parameters)[index]? = some type) :
      (initialFrame body descriptor).Untouched
        (slotTypes ((body.receiver ++ descriptor.parameters).take index)).length (some type) := by
    have typed := MethodDescriptor.getElem?_slotTypes found
    rw [same, List.getElem?_append] at typed
    split at typed
    case isTrue => exact arranged.untouched _ _ typed
    case isFalse => simp [List.getElem?_replicate] at typed
  constructor
  case receiver =>
    intro isInstance
    have found : (body.receiver ++ descriptor.parameters)[0]? = some (.object body.owner.name) := by
      rw [Body.receiver, isInstance]
      rfl
    simpa [slotTypes] using placed found
  case parameter =>
    intro index type found
    have found' :
        (body.receiver ++ descriptor.parameters)[body.receiver.length + index]? = some type := by
      rw [List.getElem?_append_right (Nat.le_add_right _ _), Nat.add_sub_cancel_left, found]
    have untouched := placed found'
    rwa [List.take_length_add_append, body.length_slotTypes] at untouched
  case between =>
    intro slot below notReceiver notParameter
    rw [arranged.size] at below
    have found : types[slot]? = some types[slot] := List.getElem?_eq_getElem below
    cases type : types[slot] with
    | none => exact arranged.untouched slot none (type ▸ found)
    | some type' =>
        -- A slot with a type is where the receiver or a parameter starts.
        have typed : (slotTypes (body.receiver ++ descriptor.parameters))[slot]? =
            some (some type') := by
          rw [same, List.getElem?_append_left below, found, type]
        obtain ⟨index, inside, rfl⟩ := MethodDescriptor.exists_of_slotTypes typed
        rcases Nat.lt_or_ge index body.receiver.length with first | behind
        · obtain ⟨isInstance, rfl⟩ := Body.eq_zero_of_lt_receiver first
          exact absurd rfl (notReceiver isInstance)
        · obtain ⟨index, rfl⟩ := Nat.exists_eq_add_of_le behind
          rw [List.length_append] at inside
          refine absurd ?_ (notParameter index (Nat.lt_of_add_lt_add_left inside))
          rw [List.take_length_add_append, body.length_slotTypes]
          rfl
  case nodup => exact arranged.nodup
  case size =>
    have long := body.length_slotTypes descriptor.parameters
    rw [same, List.length_append] at long
    rw [arranged.size]
    exact (Nat.le_add_right _ _).trans_eq long
  case stack => exact arranged.stack
  case returned => exact arranged.returned

/-- An instance method with wide parameters, one of them the last. -/
def mixedBody : Body where
  owner := { name := "demo/Mixed" }
  method := { name := "mix", descriptor := "(JI[DD)V", access := ⟨0⟩ }

def mixedDescriptor : MethodDescriptor where
  parameters := [.long, .int, .array .double, .double]
  returnType := none

/-- The number behind the wide one is in the slot after next, with a placeholder in front of it. The
second half of the last parameter gets no slot. -/
theorem mixed_entryFrame :
    mixedBody.firstSlot + mixedDescriptor.parameterSlots = 7 ∧
      EntryFrame mixedBody mixedDescriptor (initialFrame mixedBody mixedDescriptor) ∧
      (initialFrame mixedBody mixedDescriptor).Untouched 3 (some .int) ∧
      (initialFrame mixedBody mixedDescriptor).Untouched 2 none ∧
      (initialFrame mixedBody mixedDescriptor).locals.size = 6 := by
  have entry := entryFrame_initialFrame mixedBody mixedDescriptor (by decide)
  exact ⟨rfl, entry, entry.parameter 1 .int rfl,
    entry.between 2 (by decide) (by decide) (by decide), by decide⟩

end Interpreter

end ArrayBounds
