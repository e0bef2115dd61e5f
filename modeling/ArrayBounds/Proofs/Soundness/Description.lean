import ArrayBounds.Proofs.Domain.Operands
import ArrayBounds.Proofs.Soundness.Variables

/-! # Frames that describe executions

A frame of the analysis describes a frame at run time if some valuation of its variables satisfies
everything that the variables say, and gives the values on the stack and in the slots.

Descriptions are kept by all operations on frames. What makes that work is that new variables get
numbers that are not in use anywhere in the frame: in a well-formed frame every number in sight lies
below the next number to be given out.
-/

namespace ArrayBounds

open Program

namespace Frame

/-- Some position of the frame holds the variable, or it is the returned value. -/
def Held (f : Frame) (id : VarId) : Prop :=
  id ∈ f.stack ∨ id ∈ f.locals ∨ f.returned = some id

/-- All numbers that the frame refers to have been given out already. -/
structure Drawn (f : Frame) : Prop where
  bounds : ∀ (id : VarId) (v : Variable), f.vars[id]? = some v →
    ∀ target, v.IsBound target → target < f.nextId
  stack : ∀ id ∈ f.stack, id < f.nextId
  locals : ∀ (i : Nat) (id : VarId), f.locals[i]? = some id → id < f.nextId
  returned : ∀ id, f.returned = some id → id < f.nextId

/-- Every number in sight has been given out already. -/
structure WellFormed (f : Frame) : Prop extends f.Drawn where
  keys : ∀ (id : VarId) (v : Variable), f.vars[id]? = some v → id < f.nextId

/-- The valuation satisfies what the variables say. -/
def Satisfies (f : Frame) (valuation : Valuation) : Prop :=
  ∀ (id : VarId) (v : Variable), f.vars[id]? = some v → v.Holds valuation (valuation id).magnitude

/-- The valuation satisfies what the variables say, and gives the values on the stack and in the
slots. -/
structure Fits (f : Frame) (valuation : Valuation) (c : Concrete) : Prop where
  vars : f.Satisfies valuation
  stack : c.stack = f.stack.map valuation
  slots : ∀ (i : Nat) (id : VarId) (value : Value), f.locals[i]? = some id →
    c.slots i = some value → valuation id = value

/-- The frame at run time is one of those that the frame stands for. -/
def Describes (f : Frame) (c : Concrete) : Prop :=
  ∃ valuation, f.Fits valuation c

/-- A well-formed frame with a valuation for which it describes a frame at run time. -/
structure Tracks (f : Frame) (valuation : Valuation) (c : Concrete) : Prop where
  wellFormed : f.WellFormed
  fits : f.Fits valuation c

end Frame

/-- Of a valuation, only the values of the bounds matter. -/
theorem Variable.Holds.transport {v : Variable} {valuation other : Valuation} {n : Int}
    (holds : v.Holds valuation n)
    (same : ∀ target, v.IsBound target → other target = valuation target) : v.Holds other n where
  sign := holds.sign
  below target member := by
    rw [same target (.inl member)]
    exact holds.below target member
  atMost target member := by
    rw [same target (.inr member)]
    exact holds.atMost target member

/-- A variable whose bounds are old says the same after a new number got its value. -/
theorem Variable.Holds.update {v : Variable} {valuation : Valuation} {n : Int}
    (holds : v.Holds valuation n) {id : VarId} (old : ∀ target, v.IsBound target → target < id)
    (value : Value) : v.Holds (Function.update valuation id value) n :=
  holds.transport fun target bound => Function.update_of_ne (Nat.ne_of_lt (old target bound)) _ _

namespace Frame

variable {f : Frame} {valuation : Valuation} {c : Concrete} {stack : List Value} {slots : Slots}
  {v : Variable} {value : Value}

/-- Numbers in positions have been given out already. -/
theorem Drawn.held (drawn : f.Drawn) {id : VarId} (held : f.Held id) : id < f.nextId := by
  obtain onStack | inSlot | returned := held
  · exact drawn.stack id onStack
  · obtain ⟨i, found⟩ := Array.mem_iff_getElem?.mp inSlot
    exact drawn.locals i id found
  · exact drawn.returned id returned

/-- A frame without variables describes every start with an empty stack. -/
theorem Tracks.empty (slots : Slots) : ({} : Frame).Tracks (fun _ => default) ⟨[], slots⟩ := by
  have nothing (id : VarId) (v : Variable) : ({} : Frame).vars[id]? ≠ some v := by simp
  refine ⟨⟨⟨?_, ?_, ?_, ?_⟩, ?_⟩, ⟨fun id v found => absurd found (nothing id v), rfl, ?_⟩⟩ <;> simp

/-! ## New variables -/

/-- A new variable leaves the others alone. -/
theorem vars_alloc (f : Frame) (v : Variable) (id : VarId) :
    (f.alloc v).2.vars[id]? = if f.nextId = id then some v else f.vars[id]? := by
  simp only [Frame.alloc, Std.ExtTreeMap.getElem?_insert, Std.LawfulEqCmp.compare_eq_iff_eq]

/-- A new variable with old bounds keeps a frame well-formed. -/
theorem WellFormed.alloc (wellFormed : f.WellFormed)
    (old : ∀ target, v.IsBound target → target < f.nextId) :
    (f.alloc v).2.WellFormed where
  keys id w found := by
    rw [vars_alloc] at found
    split at found
    case isTrue same => exact same ▸ Nat.lt_succ_self _
    case isFalse => exact Nat.lt_succ_of_lt (wellFormed.keys id w found)
  bounds id w found target bound := by
    rw [vars_alloc] at found
    split at found
    case isTrue =>
      obtain rfl := Option.some.inj found
      exact Nat.lt_succ_of_lt (old target bound)
    case isFalse => exact Nat.lt_succ_of_lt (wellFormed.bounds id w found target bound)
  stack id member := Nat.lt_succ_of_lt (wellFormed.stack id member)
  locals i id found := Nat.lt_succ_of_lt (wellFormed.locals i id found)
  returned id found := Nat.lt_succ_of_lt (wellFormed.returned id found)

/-- A new variable can be given any value that it holds of. -/
theorem Tracks.alloc (tracks : f.Tracks valuation c)
    (old : ∀ target, v.IsBound target → target < f.nextId)
    (holds : v.Holds valuation value.magnitude) :
    (f.alloc v).2.Tracks (Function.update valuation f.nextId value) c := by
  obtain ⟨wellFormed, fits⟩ := tracks
  have kept (id : VarId) (older : id < f.nextId) :
      Function.update valuation f.nextId value id = valuation id :=
    Function.update_of_ne (Nat.ne_of_lt older) _ _
  refine ⟨wellFormed.alloc old, ?_, ?_, ?_⟩
  · intro id w found
    rw [vars_alloc] at found
    split at found
    case isTrue same =>
      obtain rfl := Option.some.inj found
      rw [← same, Function.update_self]
      exact holds.update old value
    case isFalse =>
      rw [kept id (wellFormed.keys id w found)]
      exact (fits.vars id w found).update (wellFormed.bounds id w found) value
  · rw [fits.stack]
    exact (List.map_congr_left fun id member => kept id (wellFormed.stack id member)).symm
  · intro i id there found held
    rw [kept id (wellFormed.locals i id found)]
    exact fits.slots i id there found held

/-! ## Operands -/

/-- The stack may be exchanged for one with variables that give the values. -/
theorem Tracks.withStack (tracks : f.Tracks valuation c) {ids : List VarId}
    (old : ∀ id ∈ ids, id < f.nextId) (same : stack = ids.map valuation) :
    ({ f with stack := ids } : Frame).Tracks valuation ⟨stack, c.slots⟩ :=
  ⟨{ tracks.wellFormed with stack := old }, { tracks.fits with stack := same }⟩

/-- A value may be pushed with any variable that holds of it. -/
theorem Tracks.push (tracks : f.Tracks valuation ⟨stack, slots⟩)
    (old : ∀ target, v.IsBound target → target < f.nextId)
    (holds : v.Holds valuation value.magnitude) :
    (f.push v).Tracks (Function.update valuation f.nextId value) ⟨value :: stack, slots⟩ := by
  have tracked := tracks.alloc old holds
  refine tracked.withStack ?_ ?_
  · intro id member
    obtain rfl | member := List.mem_cons.mp member
    · exact Nat.lt_succ_self _
    · exact tracked.wellFormed.stack id member
  · have rest := tracked.fits.stack
    dsimp only at rest
    rw [List.map_cons, rest]
    congr 1
    exact (Function.update_self f.nextId value valuation).symm

/-- A variable without bounds may stand for any value of its sign. -/
theorem Tracks.pushUnbounded (tracks : f.Tracks valuation ⟨stack, slots⟩) (value : Value) :
    ∃ valuation', ∀ v : Variable, v.below = ∅ → v.atMost = ∅ → v.sign.Contains value.magnitude →
      (f.push v).Tracks valuation' ⟨value :: stack, slots⟩ :=
  ⟨Function.update valuation f.nextId value, fun _ below atMost sign =>
    tracks.push (fun _ bound => absurd bound (Variable.not_isBound_of_unbounded below atMost))
      (Variable.holds_of_unbounded below atMost sign)⟩

/-- The top of the stack gives the topmost value. -/
theorem Tracks.pop (tracks : f.Tracks valuation ⟨value :: stack, slots⟩) :
    ∃ id rest, f.pop = .ok (id, { f with stack := rest }) ∧ valuation id = value ∧ id < f.nextId ∧
      ({ f with stack := rest } : Frame).Tracks valuation ⟨stack, slots⟩ := by
  have same := tracks.fits.stack
  cases held : f.stack with
  | nil =>
      rw [held] at same
      cases same
  | cons id rest =>
      simp only [held, List.map_cons, List.cons.injEq] at same
      have old := tracks.wellFormed.stack
      rw [held] at old
      exact ⟨id, rest, pop_eq_ok_iff.mpr ⟨rest, held, rfl⟩, same.1.symm,
        old id (List.mem_cons_self ..),
        tracks.withStack (fun id member => old id (List.mem_cons_of_mem _ member)) same.2⟩

/-- The topmost entries give the topmost values. -/
theorem Tracks.popN (values : List Value) {count : Nat}
    (tracks : f.Tracks valuation ⟨values ++ stack, slots⟩) (enough : values.length = count) :
    ∃ ids rest, f.popN count = .ok (ids, { f with stack := rest }) ∧
      ids.map valuation = values.reverse ∧ (∀ id ∈ ids, id < f.nextId) ∧
      ({ f with stack := rest } : Frame).Tracks valuation ⟨stack, slots⟩ := by
  have same := tracks.fits.stack
  dsimp only at same
  have length : values.length + stack.length = f.stack.length := by
    rw [← List.length_append, same, List.length_map]
  have top : (f.stack.take count).map valuation = values := by
    rw [List.map_take, ← same, ← enough, List.take_left]
  have bottom : stack = (f.stack.drop count).map valuation := by
    rw [List.map_drop, ← same, ← enough, List.drop_left]
  refine ⟨(f.stack.take count).reverse, f.stack.drop count,
    popN_eq_ok_iff.mpr ⟨by omega, rfl, rfl⟩, ?_, ?_, ?_⟩
  · rw [List.map_reverse, top]
  · exact fun id member =>
      tracks.wellFormed.stack id (List.mem_of_mem_take (List.mem_reverse.mp member))
  · exact tracks.withStack
      (fun id member => tracks.wellFormed.stack id (List.mem_of_mem_drop member)) bottom

/-! ## Changes in place -/

/-- Changing a variable leaves the others alone. -/
theorem vars_modify (f : Frame) (id : VarId) (change : Variable → Variable) (other : VarId) :
    (f.modify id change).vars[other]? = if id = other then f.vars[id]?.map change
      else f.vars[other]? := by
  unfold modify
  cases found : f.vars[id]? with
  | none =>
      dsimp only [Option.map_none]
      split
      case isTrue same => rw [← same, found]
      case isFalse => rfl
  | some v =>
      simp only [Std.ExtTreeMap.getElem?_insert, Std.LawfulEqCmp.compare_eq_iff_eq, Option.map_some]

/-- Changing a variable keeps a frame well-formed if its new bounds are old numbers. -/
theorem WellFormed.modify (wellFormed : f.WellFormed) (id : VarId) (change : Variable → Variable)
    (old : ∀ v, f.vars[id]? = some v → ∀ target, (change v).IsBound target → target < f.nextId) :
    (f.modify id change).WellFormed := by
  rw [modify_eq]
  refine { wellFormed with bounds := ?_, keys := ?_ }
  · intro other w found
    rw [vars_modify] at found
    split at found
    case isTrue =>
      obtain ⟨v, present, rfl⟩ := Option.map_eq_some_iff.mp found
      exact old v present
    case isFalse => exact wellFormed.bounds other w found
  · intro other w found
    rw [vars_modify] at found
    split at found
    case isTrue same =>
      obtain ⟨v, present, -⟩ := Option.map_eq_some_iff.mp found
      exact same ▸ wellFormed.keys id v present
    case isFalse => exact wellFormed.keys other w found

/-- A variable may be changed to anything that holds of its value. -/
theorem Tracks.modify (tracks : f.Tracks valuation c) (id : VarId) (change : Variable → Variable)
    (old : ∀ v, f.vars[id]? = some v → ∀ target, (change v).IsBound target → target < f.nextId)
    (holds : ∀ v, f.vars[id]? = some v → (change v).Holds valuation (valuation id).magnitude) :
    (f.modify id change).Tracks valuation c := by
  refine ⟨tracks.wellFormed.modify id change old, ?_⟩
  rw [modify_eq]
  refine { tracks.fits with vars := fun other w found => ?_ }
  rw [vars_modify] at found
  split at found
  case isTrue same =>
    obtain ⟨v, present, rfl⟩ := Option.map_eq_some_iff.mp found
    exact same ▸ holds v present
  case isFalse => exact tracks.fits.vars other w found

/-- What a relation tells about two variables is true if it holds between their values. -/
theorem Tracks.assume (tracks : f.Tracks valuation c) {lhs rhs : VarId} {relation : Relation}
    (relates : relation.Relates (valuation lhs).magnitude (valuation rhs).magnitude) :
    (f.assume lhs relation rhs).Tracks valuation c := by
  unfold Frame.assume
  split
  case h_2 => exact tracks
  case h_1 left right foundLeft foundRight =>
    have oldLeft := tracks.wellFormed.bounds lhs left foundLeft
    have oldRight := tracks.wellFormed.bounds rhs right foundRight
    have refined : (f.modify lhs (relation.refine · right)).Tracks valuation c := by
      refine tracks.modify lhs _ ?_ ?_
      · intro v found target bound
        obtain bound | bound := bound.refine
        · exact tracks.wellFormed.bounds lhs v found target bound
        · exact oldRight target bound
      · exact fun v found =>
          (tracks.fits.vars lhs v found).refine (tracks.fits.vars rhs right foundRight) relates
    dsimp only
    split
    case isTrue => exact refined
    case isFalse different =>
      -- The other side has not been touched by the first refinement.
      have same : (f.modify lhs (relation.refine · right)).vars[rhs]? = some right := by
        rw [vars_modify, if_neg different, foundRight]
      have next : (f.modify lhs (relation.refine · right)).nextId = f.nextId := by rw [modify_eq]
      refine refined.modify rhs _ ?_ ?_
      · intro v found target bound
        rw [next]
        obtain bound | bound := bound.refine
        · exact next ▸ refined.wellFormed.bounds rhs v found target bound
        · exact oldLeft target bound
      · intro v found
        exact (refined.fits.vars rhs v found).refine
          (tracks.fits.vars lhs left foundLeft) relates.flip

/-- A sign may be assumed of a value that has it. -/
theorem Tracks.assumeSign (tracks : f.Tracks valuation c) {id : VarId} {sign : Sign}
    (holds : sign.Contains (valuation id).magnitude) : (f.assumeSign id sign).Tracks valuation c :=
  tracks.modify id _ (fun v found => tracks.wellFormed.bounds id v found)
    fun v found =>
      ⟨holds, (tracks.fits.vars id v found).below, (tracks.fits.vars id v found).atMost⟩

/-- A variable says something true about its value, also if it is missing and nothing is known. -/
theorem Tracks.holds_value (tracks : f.Tracks valuation c) (id : VarId) :
    (f.value id).Holds valuation (valuation id).magnitude ∧ ∀ target, (f.value id).IsBound target →
      target < f.nextId := by
  unfold Frame.value
  cases found : f.vars[id]? with
  | none =>
      exact ⟨Variable.holds_unknown _ _ _,
        fun _ bound => absurd bound (Variable.not_isBound_of_unbounded rfl rfl)⟩
  | some v => exact ⟨tracks.fits.vars id v found, tracks.wellFormed.bounds id v found⟩

/-! ## Slots -/

/-- New slots of which nothing is known do not affect what is described. -/
theorem Tracks.addLocals (tracks : f.Tracks valuation c) (count : Nat) :
    ∃ valuation', (f.addLocals count).Tracks valuation' c ∧
      (∀ id, id < f.nextId → valuation' id = valuation id) ∧ f.nextId ≤ (f.addLocals count).nextId ∧
      (f.addLocals count).locals.size = f.locals.size + count := by
  induction count generalizing f valuation with
  | zero => exact ⟨valuation, tracks, fun _ _ => rfl, Nat.le_refl _, rfl⟩
  | succ count ih =>
      -- The new slot gets the value that it has at run time, if it has one there.
      let unused : Variable :=
        { Variable.unknown none f.pc with slot := some (UInt16.ofNat f.locals.size) }
      let value : Value := (c.slots f.locals.size).getD default
      have allocated : (f.alloc unused).2.Tracks (Function.update valuation f.nextId value) c :=
        tracks.alloc (fun _ bound => absurd bound (Variable.not_isBound_of_unbounded rfl rfl))
          (Variable.holds_of_unbounded rfl rfl trivial)
      let extended : Frame := { (f.alloc unused).2 with locals := f.locals.push f.nextId }
      have tracked : extended.Tracks (Function.update valuation f.nextId value) c := by
        refine ⟨{ allocated.wellFormed with locals := ?_ }, { allocated.fits with slots := ?_ }⟩
        · intro i id found
          rw [Array.getElem?_push] at found
          split at found
          · obtain rfl := Option.some.inj found
            exact Nat.lt_succ_self _
          · exact allocated.wellFormed.locals i id found
        · intro i id there found held
          rw [Array.getElem?_push] at found
          split at found
          case isTrue same =>
            obtain rfl := Option.some.inj found
            subst same
            rw [Function.update_self]
            simp only [value, held, Option.getD_some]
          case isFalse => exact allocated.fits.slots i id there found held
      obtain ⟨valuation', final, kept, next, size⟩ := ih tracked
      refine ⟨valuation', final, ?_, ?_, ?_⟩
      · intro id older
        rw [kept id (Nat.lt_succ_of_lt older), Function.update_of_ne (Nat.ne_of_lt older)]
      · exact Nat.le_trans (Nat.le_succ _) next
      · exact size.trans (by simp only [extended, Array.size_push]; omega)

/-- Making sure that a slot exists adds variables, and gives values to them only. -/
theorem Tracks.ensureLocal (tracks : f.Tracks valuation c) (slot : UInt16) :
    ∃ valuation' id, (f.ensureLocal slot).Tracks valuation' c ∧
      (f.ensureLocal slot).localId? slot = some id ∧
      (∀ id, id < f.nextId → valuation' id = valuation id) ∧
      f.nextId ≤ (f.ensureLocal slot).nextId := by
  obtain ⟨valuation', tracked, kept, next, size⟩ :=
    tracks.addLocals (slot.toNat + 1 - f.locals.size)
  have inside : slot.toNat < (f.ensureLocal slot).locals.size := by
    change slot.toNat < (f.addLocals (slot.toNat + 1 - f.locals.size)).locals.size
    omega
  exact ⟨valuation', _, tracked, Array.getElem?_eq_getElem inside, kept, next⟩

/-- Storing a value disturbs other slots at most by taking their values away. -/
theorem store_eq_some {slot i : Nat} {other : Value}
    (held : slots.store slot value i = some other) :
    i = slot ∧ value = other ∨ i ≠ slot ∧ slots i = some other := by
  unfold Slots.store at held
  split at held
  case isTrue same => exact .inl ⟨same, Option.some.inj held⟩
  case isFalse different =>
    split at held
    · cases held
    · split at held
      · cases held
      · exact .inr ⟨different, held⟩

/-- A slot that is set holds its new variable, and the others hold what they held. -/
theorem locals_setLocal {slot : UInt16} {id other : VarId} {i : Nat}
    (found : (f.setLocal slot id).locals[i]? = some other) :
    i = slot.toNat ∧ id = other ∨ i ≠ slot.toNat ∧ f.locals[i]? = some other := by
  unfold setLocal at found
  rw [Array.getElem?_setIfInBounds] at found
  split at found
  case isTrue same =>
    split at found
    · exact .inl ⟨same.symm, Option.some.inj found⟩
    · cases found
  case isFalse different => exact .inr ⟨Ne.symm different, found⟩

/-- A slot may be given a variable with its value, while other slots may lose theirs. -/
theorem Tracks.setLocal {slots' : Slots} (tracks : f.Tracks valuation ⟨stack, slots⟩) {id : VarId}
    (old : id < f.nextId) (slot : UInt16)
    (here : ∀ value, slots' slot.toNat = some value → valuation id = value)
    (elsewhere : ∀ i value, i ≠ slot.toNat → slots' i = some value → slots i = some value) :
    (f.setLocal slot id).Tracks valuation ⟨stack, slots'⟩ := by
  obtain ⟨wellFormed, fits⟩ := tracks
  refine ⟨{ wellFormed with locals := ?_ }, { fits with slots := ?_ }⟩
  · intro i other found
    obtain ⟨-, rfl⟩ | ⟨-, found⟩ := locals_setLocal found
    · exact old
    · exact wellFormed.locals i other found
  · intro i other value found held
    obtain ⟨rfl, rfl⟩ | ⟨different, found⟩ := locals_setLocal found
    · exact here value held
    · exact fits.slots i other value found (elsewhere i value different held)

/-- A slot may be given a variable that has the stored value. -/
private theorem Tracks.storeLocal (tracks : f.Tracks valuation ⟨stack, slots⟩) {id : VarId}
    (old : id < f.nextId) (slot : UInt16) (same : valuation id = value) :
    (f.setLocal slot id).Tracks valuation ⟨stack, slots.store slot.toNat value⟩ := by
  refine tracks.setLocal old slot ?_ ?_
  · intro other held
    obtain ⟨-, rfl⟩ | ⟨different, -⟩ := store_eq_some held
    · exact same
    · exact absurd rfl different
  · intro i other different held
    obtain ⟨same, -⟩ | ⟨-, held⟩ := store_eq_some held
    · exact absurd same different
    · exact held

/-- A slot may be defined anew by a variable about which nothing is known. -/
theorem Tracks.defineUnknown (tracks : f.Tracks valuation ⟨stack, slots⟩) (slot : UInt16)
    (type : Option FieldType) (definedAt : Nat) :
    ∃ valuation',
      (f.defineLocal slot (.unknown type definedAt)).2.Tracks valuation' ⟨stack, slots⟩ := by
  obtain ⟨valuation', _, ensured, -, -, -⟩ := tracks.ensureLocal slot
  have allocated :
      ((f.ensureLocal slot).alloc
        { Variable.unknown type definedAt with slot := some slot }).2.Tracks
      (Function.update valuation' (f.ensureLocal slot).nextId ((slots slot.toNat).getD default))
      ⟨stack, slots⟩ :=
    ensured.alloc (fun _ bound => absurd bound (Variable.not_isBound_of_unbounded rfl rfl))
      (Variable.holds_of_unbounded rfl rfl trivial)
  refine ⟨_, allocated.setLocal (Nat.lt_succ_self _) slot ?_ fun _ _ _ held => held⟩
  intro value held
  rw [Function.update_self, held, Option.getD_some]

/-- A load pushes the value in the slot. -/
theorem Tracks.load (tracks : f.Tracks valuation ⟨stack, slots⟩) {slot : UInt16}
    (found : slots slot.toNat = some value) :
    ∃ valuation', (f.load slot).Tracks valuation' ⟨value :: stack, slots⟩ := by
  obtain ⟨valuation', id, tracked, held, -, -⟩ := tracks.ensureLocal slot
  have same : valuation' id = value := tracked.fits.slots slot.toNat id value held found
  refine ⟨valuation', ?_⟩
  simp only [Frame.load, held]
  refine tracked.withStack ?_ ?_
  · intro other member
    obtain rfl | member := List.mem_cons.mp member
    · exact tracked.wellFormed.locals slot.toNat other held
    · exact tracked.wellFormed.stack other member
  · rw [List.map_cons, same]
    exact congrArg _ tracked.fits.stack

/-- A store puts the value on top of the stack into the slot. -/
theorem Tracks.store (tracks : f.Tracks valuation ⟨value :: stack, slots⟩) (slot : UInt16) :
    ∃ valuation' g, f.store slot = .ok g ∧
      g.Tracks valuation' ⟨stack, slots.store slot.toNat value⟩ := by
  obtain ⟨id, rest, popped, same, old, tracked⟩ := tracks.pop
  obtain ⟨valuation', _, ensured, -, kept, next⟩ := tracked.ensureLocal slot
  let labelled (v : Variable) : Variable :=
    { v with slot := some slot, origin := .localValue,
             definedAt := (({ f with stack := rest } : Frame).ensureLocal slot).pc + 1 }
  have relabelled := ensured.modify id labelled
    (fun v found => ensured.wellFormed.bounds id v found)
    (fun v found => (ensured.fits.vars id v found).congr rfl rfl rfl)
  have older :
      id < ((({ f with stack := rest } : Frame).ensureLocal slot).modify id labelled).nextId := by
    rw [modify_eq]
    exact Nat.lt_of_lt_of_le old next
  refine ⟨valuation', _, ?_, relabelled.storeLocal older slot ((kept id old).trans same)⟩
  exact Except.bind_eq_ok_iff.mpr ⟨_, popped, rfl⟩

/-- An increment adds to the number in the slot. -/
theorem Tracks.increment {number : Int} (tracks : f.Tracks valuation ⟨stack, slots⟩) {slot : UInt16}
    (found : slots slot.toNat = some (.int number)) (delta : Int) :
    ∃ valuation',
      (f.increment slot delta).Tracks valuation'
        ⟨stack, slots.store slot.toNat (.int (number + delta))⟩ := by
  obtain ⟨valuation', id, ensured, held, -, -⟩ := tracks.ensureLocal slot
  have before : valuation' id = .int number := ensured.fits.slots slot.toNat id _ held found
  have replaced {next : Variable} (holds : next.Holds valuation' (number + delta))
      (bounded : ∀ target, next.IsBound target → target < (f.ensureLocal slot).nextId) :
      (((f.ensureLocal slot).alloc { next with slot := some slot }).2.setLocal slot
        (f.ensureLocal slot).nextId).Tracks
        (Function.update valuation' (f.ensureLocal slot).nextId (.int (number + delta)))
        ⟨stack, slots.store slot.toNat (.int (number + delta))⟩ := by
    have allocated : ((f.ensureLocal slot).alloc { next with slot := some slot }).2.Tracks
        (Function.update valuation' (f.ensureLocal slot).nextId (.int (number + delta)))
        ⟨stack, slots⟩ :=
      ensured.alloc bounded (holds.congr rfl rfl rfl)
    exact allocated.storeLocal (Nat.lt_succ_self _) slot (Function.update_self ..)
  unfold Frame.increment
  simp only [local?, held, Option.bind_some]
  cases present : (f.ensureLocal slot).vars[id]? with
  | none =>
      exact ⟨_, replaced (Variable.holds_unknown _ _ _) fun _ bound =>
        absurd bound (Variable.not_isBound_of_unbounded rfl rfl)⟩
  | some v =>
      have holds := ensured.fits.vars id v present
      rw [before] at holds
      exact ⟨_, replaced (holds.increment delta _) fun target bound =>
        ensured.wellFormed.bounds id v present target bound.increment⟩

end Frame

end ArrayBounds
