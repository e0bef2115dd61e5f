import ArrayBounds.Proofs.Soundness.Join

/-! # Frames that hold what they refer to

A frame refers to variables by number: from its positions, from its returned value and from bounds.
In a closed frame each of these numbers has a variable (`ArrayBounds.Frame.Closed`). Effects of
instructions and joins keep frames closed. Moreover an effect changes no sign and touches no
returned value, and it makes no value impossible that was possible before
(`ArrayBounds.Frame.Develops`).
-/

namespace ArrayBounds

open Program

/-! ## Signs of results -/

/-- Two possible signs have a possible meet. -/
private theorem Sign.meet_ne_bottom {a b : Sign} (left : a ≠ .bottom) (right : b ≠ .bottom) :
    a.meet b ≠ .bottom := by
  unfold meet
  split
  · exact right
  · exact left

/-- What says no more than a possible sign is possible. -/
theorem Sign.ne_bottom_of_le {a b : Sign} (le : a ≤ b) (possible : a ≠ .bottom) : b ≠ .bottom := by
  rintro rfl
  cases a with
  | bottom => exact possible rfl
  | positive | nonNegative | top => exact absurd le (by decide)

namespace Variable

variable {v other lhs rhs : Variable}

/-- A comparison leaves possible signs possible. -/
private theorem refine_ne_bottom {relation : Frame.Relation} (here : v.sign ≠ .bottom)
    (there : other.sign ≠ .bottom) : (relation.refine v other).sign ≠ .bottom := by
  cases relation with
  | lt | le => exact here
  | gt =>
      change (v.refineGt other).sign ≠ .bottom
      unfold refineGt
      split
      · exact Sign.meet_ne_bottom here (by decide)
      · exact here
  | ge =>
      change (v.refineGe other).sign ≠ .bottom
      unfold refineGe
      split
      · exact Sign.meet_ne_bottom here there
      · exact here
  | eq => exact Sign.meet_ne_bottom here there

/-- Increments leave possible signs possible. -/
private theorem increment_ne_bottom {delta : Int} {definedAt : Nat} (possible : v.sign ≠ .bottom) :
    (v.increment delta definedAt).sign ≠ .bottom := by
  unfold increment
  cases sign : v.sign with
  | bottom => exact absurd sign possible
  | positive | nonNegative | top => grind [clearBounds]

/-- A bound leaves possible signs possible. -/
private theorem boundedBy_ne_bottom {result : Variable} (possible : result.sign ≠ .bottom) :
    (result.boundedBy v).sign ≠ .bottom := by
  unfold boundedBy
  split
  · exact Sign.noConfusion
  · exact possible

/-- Arithmetic gives possible results even for impossible operands. -/
theorem binary_ne_bottom (op : ArithmeticOp) (lhs rhs : Variable) (kind : NumericKind)
    (definedAt : Nat) : (binary op lhs rhs kind definedAt).sign ≠ .bottom := by
  have nothing : (unknown (some kind.type) definedAt).sign ≠ .bottom := Sign.noConfusion
  unfold binary
  cases op with
  | sub | neg | shl | or | xor => exact nothing
  | add => cases lhs.sign <;> cases rhs.sign <;> exact Sign.noConfusion
  | mul => cases lhs.sign <;> cases rhs.sign <;> exact Sign.noConfusion
  | div | rem => cases lhs.sign <;> cases rhs.sign <;> exact Sign.noConfusion
  | and => exact boundedBy_ne_bottom (boundedBy_ne_bottom nothing)
  | shr | ushr => exact boundedBy_ne_bottom nothing

/-- Conversions leave possible signs possible. -/
private theorem convert_ne_bottom {source : NumericKind} {target : ConversionTarget}
    {definedAt : Nat} (possible : v.sign ≠ .bottom) :
    (v.convert source target definedAt).sign ≠ .bottom := by
  unfold convert
  dsimp only
  split
  · exact possible
  · split
    · exact Sign.noConfusion
    · exact Sign.noConfusion

end Variable

/-- A comparison with zero leaves possible signs possible. -/
private theorem Sign.given_ne_bottom {comparison : Comparison} {sign sign' : Sign}
    (possible : sign ≠ .bottom) (given : Sign.given comparison sign = some sign') :
    sign' ≠ .bottom := by
  cases comparison with
  | eq | ge =>
      obtain rfl := Option.some.inj given
      exact Sign.meet_ne_bottom possible Sign.noConfusion
  | gt =>
      obtain rfl := Option.some.inj given
      exact Sign.meet_ne_bottom possible Sign.noConfusion
  | le =>
      obtain rfl := Option.some.inj given
      split <;> exact Sign.noConfusion
  | lt =>
      obtain rfl := Option.some.inj given
      exact Sign.noConfusion
  | ne => cases given

/-- Constants have possible signs. -/
private theorem Program.Constant.variable_ne_bottom (constant : Constant) (definedAt : Nat) :
    (constant.variable definedAt).sign ≠ .bottom := by
  unfold Constant.variable
  cases constant with
  | int value | long value =>
      dsimp only
      unfold Sign.ofInt
      grind
  | float bits =>
      dsimp only
      unfold Sign.ofFloatBits
      grind
  | double bits =>
      dsimp only
      unfold Sign.ofDoubleBits
      grind
  | string | classLiteral | null | unknown => exact Sign.noConfusion

private theorem Program.Constant.variable_unbounded (constant : Constant) (definedAt : Nat) :
    (constant.variable definedAt).below = ∅ ∧ (constant.variable definedAt).atMost = ∅ := by
  cases constant <;> exact ⟨rfl, rfl⟩

namespace Frame

variable {f g h : Frame} {v : Variable} {id : VarId}

/-- Every number that a frame refers to has a variable, and new numbers are not in use. -/
structure Closed (f : Frame) : Prop extends f.WellFormed where
  present : ∀ id, f.Held id → id ∈ f.vars
  targets : ∀ (id : VarId) v, f.vars[id]? = some v → ∀ target, v.IsBound target → target ∈ f.vars

/-- No variable of the frame is impossible. -/
def Possible (f : Frame) : Prop :=
  ∀ (id : VarId) v, f.vars[id]? = some v → v.sign ≠ .bottom

/-- Every variable of `f` is in `g`, with a sign that says no more. -/
def Rises (f g : Frame) : Prop :=
  ∀ (id : VarId) v, f.vars[id]? = some v → ∃ w, g.vars[id]? = some w ∧ v.sign ≤ w.sign

/-- The frame `g` is closed and has come from `f` without forgetting a variable, refining a sign or
returning. -/
structure Grows (f g : Frame) : Prop where
  closed : g.Closed
  rises : f.Rises g
  returned : g.returned = f.returned

/-- Growth that makes no value impossible. -/
structure Develops (f g : Frame) : Prop extends f.Grows g where
  possible : f.Possible → g.Possible

/-- A number is in use if it has a variable. -/
theorem mem_vars_iff : id ∈ f.vars ↔ ∃ v, f.vars[id]? = some v := by
  rw [Std.ExtTreeMap.mem_iff_isSome_getElem?, Option.isSome_iff_exists]

/-- Numbers in use have been given out already. -/
theorem WellFormed.older (wellFormed : f.WellFormed) (id : VarId) (present : id ∈ f.vars) :
    id < f.nextId := by
  obtain ⟨v, found⟩ := mem_vars_iff.mp present
  exact wellFormed.keys id v found

/-- Where everything that is referred to has a variable, only the variables need to be looked at. -/
theorem Closed.of_older (present : ∀ id, f.Held id → id ∈ f.vars)
    (targets : ∀ (id : VarId) v, f.vars[id]? = some v → ∀ target, v.IsBound target →
      target ∈ f.vars) (older : ∀ id ∈ f.vars, id < f.nextId) : f.Closed where
  keys id v found := older id (mem_vars_iff.mpr ⟨v, found⟩)
  bounds id v found target bound := older target (targets id v found target bound)
  stack id member := older id (present id (.inl member))
  locals _ id found := older id (present id (.inr (.inl (Array.mem_of_getElem? found))))
  returned id found := older id (present id (.inr (.inr found)))
  present := present
  targets := targets

private theorem Rises.refl (f : Frame) : f.Rises f :=
  fun _ v found => ⟨v, found, Nat.le_refl _⟩

/-- Rising is transitive. -/
private theorem Rises.trans (first : f.Rises g) (second : g.Rises h) : f.Rises h := by
  intro id v found
  obtain ⟨w, found, le⟩ := first id v found
  obtain ⟨x, found, le'⟩ := second id w found
  exact ⟨x, found, Nat.le_trans le le'⟩

/-- Growth can be put together. -/
theorem Grows.trans (first : f.Grows g) (second : g.Grows h) : f.Grows h :=
  ⟨second.closed, first.rises.trans second.rises, second.returned.trans first.returned⟩

/-- Developments can be put together. -/
theorem Develops.trans (first : f.Develops g) (second : g.Develops h) : f.Develops h :=
  ⟨first.toGrows.trans second.toGrows, fun possible => second.possible (first.possible possible)⟩

/-- Numbers stay in use. -/
theorem Rises.mem (rises : f.Rises g) (present : id ∈ f.vars) : id ∈ g.vars := by
  obtain ⟨v, found⟩ := mem_vars_iff.mp present
  obtain ⟨w, found, -⟩ := rises id v found
  exact mem_vars_iff.mpr ⟨w, found⟩

/-- A closed frame develops where nothing happens. -/
theorem Closed.refl (closed : f.Closed) : f.Develops f :=
  ⟨⟨closed, .refl f, rfl⟩, id⟩

/-! ## Single steps -/

/-- The frame without variables is closed. -/
theorem Closed.empty : ({} : Frame).Closed := by
  refine .of_older (fun id held => ?_) (fun id v found => ?_) fun id present => ?_
  · simp [Held] at held
  · simp at found
  · exact absurd present Std.ExtTreeMap.not_mem_empty

/-- In the frame without variables nothing is impossible. -/
theorem Possible.empty : ({} : Frame).Possible := by
  intro id v found
  simp at found

/-- A new variable may be bounded by those there are. -/
private theorem Closed.growsAlloc (closed : f.Closed)
    (known : ∀ target, v.IsBound target → target ∈ f.vars) : f.Grows (f.alloc v).2 := by
  have later (id : VarId) (present : id ∈ f.vars) : id ∈ (f.alloc v).2.vars :=
    Std.ExtTreeMap.mem_insert.mpr (.inr present)
  have old (target : VarId) (bound : v.IsBound target) : target < f.nextId :=
    closed.older target (known target bound)
  refine ⟨⟨closed.toWellFormed.alloc old, fun id held => later id (closed.present id held), ?_⟩, ?_,
    rfl⟩
  · intro id w found target bound
    rw [vars_alloc] at found
    split at found
    case isTrue =>
      obtain rfl := Option.some.inj found
      exact later target (known target bound)
    case isFalse => exact later target (closed.targets id w found target bound)
  · intro id w found
    refine ⟨w, ?_, Nat.le_refl _⟩
    rw [vars_alloc, if_neg (Nat.ne_of_gt (closed.keys id w found)), found]

/-- A new variable that is possible makes nothing impossible. -/
theorem Possible.alloc (possible : f.Possible) (here : v.sign ≠ .bottom) :
    (f.alloc v).2.Possible := by
  intro id w found
  rw [vars_alloc] at found
  split at found
  case isTrue =>
    obtain rfl := Option.some.inj found
    exact here
  case isFalse => exact possible id w found

private theorem mem_alloc (f : Frame) (v : Variable) : f.nextId ∈ (f.alloc v).2.vars :=
  Std.ExtTreeMap.mem_insert.mpr (.inl (Std.LawfulEqCmp.compare_eq_iff_eq.mpr rfl))

private theorem Closed.alloc (closed : f.Closed)
    (known : ∀ target, v.IsBound target → target ∈ f.vars) (here : f.Possible → v.sign ≠ .bottom) :
    f.Develops (f.alloc v).2 :=
  ⟨closed.growsAlloc known, fun possible => possible.alloc (here possible)⟩

/-- Positions may be given any variables that are there. -/
theorem Closed.withPositions (closed : f.Closed) (stack : List VarId) (locals : Array VarId)
    (onStack : ∀ id ∈ stack, id ∈ f.vars) (inSlots : ∀ id ∈ locals, id ∈ f.vars) :
    f.Develops { f with stack, locals } := by
  refine ⟨⟨.of_older ?_ closed.targets closed.older, .refl f, rfl⟩, id⟩
  rintro id (member | member | returned)
  · exact onStack id member
  · exact inSlots id member
  · exact closed.present id (.inr (.inr returned))

private theorem Closed.withStack (closed : f.Closed) {stack : List VarId}
    (known : ∀ id ∈ stack, id ∈ f.vars) : f.Develops { f with stack } :=
  closed.withPositions _ _ known fun id member => closed.present id (.inr (.inl member))

/-- Changing a variable keeps a frame closed if its new bounds are there. -/
theorem Closed.modify (closed : f.Closed) (id : VarId) (change : Variable → Variable)
    (known : ∀ v, f.vars[id]? = some v → ∀ target, (change v).IsBound target → target ∈ f.vars) :
    (f.modify id change).Closed := by
  have same (other : VarId) : other ∈ (f.modify id change).vars ↔ other ∈ f.vars := by
    rw [Std.ExtTreeMap.mem_iff_isSome_getElem?, Std.ExtTreeMap.mem_iff_isSome_getElem?, vars_modify]
    split
    case isTrue equal => rw [← equal, Option.isSome_map]
    case isFalse => rfl
  have old (v : Variable) (found : f.vars[id]? = some v) (target : VarId)
      (bound : (change v).IsBound target) : target < f.nextId :=
    closed.older target (known v found target bound)
  refine ⟨closed.toWellFormed.modify id change old, fun other held => ?_,
    fun other w found target bound => ?_⟩
  · rw [same]
    rw [modify_eq] at held
    exact closed.present other held
  · rw [same]
    rw [vars_modify] at found
    split at found
    case isTrue =>
      obtain ⟨v, present, rfl⟩ := Option.map_eq_some_iff.mp found
      exact known v present target bound
    case isFalse => exact closed.targets other w found target bound

/-- A change that keeps the sign of its variable possible keeps all signs possible. -/
private theorem Possible.modify (possible : f.Possible) (id : VarId) (change : Variable → Variable)
    (here : ∀ v, f.vars[id]? = some v → (change v).sign ≠ .bottom) :
    (f.modify id change).Possible := by
  intro other w found
  rw [vars_modify] at found
  split at found
  case isTrue =>
    obtain ⟨v, present, rfl⟩ := Option.map_eq_some_iff.mp found
    exact here v present
  case isFalse => exact possible other w found

/-- A change of a variable that leaves its sign alone is a development. -/
theorem Closed.modifySame (closed : f.Closed) (id : VarId) (change : Variable → Variable)
    (known : ∀ v, f.vars[id]? = some v → ∀ target, (change v).IsBound target → target ∈ f.vars)
    (same : ∀ v, (change v).sign = v.sign) : f.Develops (f.modify id change) := by
  refine ⟨⟨closed.modify id change known, ?_, by rw [modify_eq]⟩, ?_⟩
  · intro other v found
    rw [vars_modify]
    split
    case isTrue equal =>
      rw [equal, found, Option.map_some]
      exact ⟨change v, rfl, Nat.le_of_eq (congrArg Sign.rank (same v)).symm⟩
    case isFalse => exact ⟨v, found, Nat.le_refl _⟩
  · exact fun possible => possible.modify id change fun v found =>
      (same v).symm ▸ possible id v found

/-! ## Operands -/

/-- A push grows a closed frame if the bounds of the new variable are there. -/
theorem Closed.growsPush (closed : f.Closed)
    (known : ∀ target, v.IsBound target → target ∈ f.vars) : f.Grows (f.push v) := by
  have grown := closed.growsAlloc known
  refine grown.trans (grown.closed.withStack fun id member => ?_).toGrows
  obtain rfl | member := List.mem_cons.mp member
  · exact f.mem_alloc v
  · exact grown.rises.mem (closed.present id (.inl member))

private theorem Closed.push (closed : f.Closed)
    (known : ∀ target, v.IsBound target → target ∈ f.vars) (here : f.Possible → v.sign ≠ .bottom) :
    f.Develops (f.push v) :=
  ⟨closed.growsPush known, fun possible => possible.alloc (here possible)⟩

/-- A push of a variable without bounds develops a closed frame. -/
theorem Closed.pushUnbounded (closed : f.Closed) (below : v.below = ∅) (atMost : v.atMost = ∅)
    (here : v.sign ≠ .bottom) : f.Develops (f.push v) :=
  closed.push (fun _ bound => absurd bound (Variable.not_isBound_of_unbounded below atMost))
    fun _ => here

/-- A pop develops a closed frame, and the popped number stays in use. -/
theorem Closed.pop (closed : f.Closed) (success : f.pop = .ok (id, g)) :
    f.Develops g ∧ id ∈ g.vars := by
  obtain ⟨rest, held, rfl⟩ := pop_eq_ok_iff.mp success
  have present (other : VarId) (member : other ∈ id :: rest) : other ∈ f.vars :=
    closed.present other (.inl (held ▸ member))
  exact ⟨closed.withStack fun other member => present other (List.mem_cons_of_mem id member),
    present id List.mem_cons_self⟩

/-- So does a pop of several numbers. -/
theorem Closed.popN (closed : f.Closed) {count : Nat} {ids : List VarId}
    (success : f.popN count = .ok (ids, g)) : f.Develops g := by
  obtain ⟨-, -, rfl⟩ := popN_eq_ok_iff.mp success
  exact closed.withStack fun id member => closed.present id (.inl (List.mem_of_mem_drop member))

private theorem Closed.shuffle (closed : f.Closed) {op : StackOp} (success : f.shuffle op = .ok g) :
    f.Develops g := by
  obtain ⟨stack, applied, rfl⟩ := shuffle_eq_ok_iff.mp success
  exact closed.withStack fun id member =>
    closed.present id (.inl (StackOp.mem_of_apply applied id member))

/-! ## Slots -/

/-- Adding slots keeps the frame closed. -/
private theorem Closed.addLocals (closed : f.Closed) (count : Nat) :
    f.Develops (f.addLocals count) := by
  induction count generalizing f with
  | zero => exact closed.refl
  | succ count ih =>
      have unbounded (target : VarId) : ¬Variable.IsBound
          { Variable.unknown none f.pc with slot := some (UInt16.ofNat f.locals.size) } target :=
        Variable.not_isBound_of_unbounded rfl rfl
      have grown := closed.alloc (fun target bound => absurd bound (unbounded target)) fun _ =>
        Sign.noConfusion
      have added := grown.closed.withPositions f.stack (f.locals.push f.nextId)
        (fun id member => grown.rises.mem (closed.present id (.inl member))) fun id member => by
          obtain member | rfl := Array.mem_push.mp member
          · exact grown.rises.mem (closed.present id (.inr (.inl member)))
          · exact f.mem_alloc _
      exact (grown.trans added).trans (ih added.closed)

/-- Making room for a slot develops a closed frame. -/
theorem Closed.ensureLocal (closed : f.Closed) (slot : UInt16) : f.Develops (f.ensureLocal slot) :=
  closed.addLocals _

/-- A slot may be given any variable that there is. -/
private theorem Closed.setLocal (closed : f.Closed) (slot : UInt16) (present : id ∈ f.vars) :
    f.Develops (f.setLocal slot id) := by
  refine closed.withPositions _ _ (fun other member => closed.present other (.inl member))
    fun other member => ?_
  obtain ⟨i, found⟩ := Array.mem_iff_getElem?.mp member
  obtain ⟨-, rfl⟩ | ⟨-, found⟩ := locals_setLocal (f := f) found
  · exact present
  · exact closed.present other (.inr (.inl (Array.mem_of_getElem? found)))

/-- A slot may be given a new variable. -/
theorem Closed.setNew (closed : f.Closed) (slot : UInt16)
    (known : ∀ target, v.IsBound target → target ∈ f.vars) (here : f.Possible → v.sign ≠ .bottom) :
    f.Develops ((f.alloc v).2.setLocal slot f.nextId) := by
  have grown := closed.alloc known here
  exact grown.trans (grown.closed.setLocal slot (f.mem_alloc v))

/-- Giving a slot a value of which nothing is known develops a closed frame. -/
theorem Closed.defineUnknown (closed : f.Closed) (slot : UInt16) (type : Option FieldType)
    (definedAt : Nat) : f.Develops (f.defineLocal slot (.unknown type definedAt)).2 := by
  have room := closed.ensureLocal slot
  refine room.trans (room.closed.setNew slot (fun target bound => ?_) fun _ => Sign.noConfusion)
  exact absurd bound (Variable.not_isBound_of_unbounded rfl rfl)

/-- Loading keeps the frame closed. -/
private theorem Closed.load (closed : f.Closed) (slot : UInt16) : f.Develops (f.load slot) := by
  have room := closed.ensureLocal slot
  unfold Frame.load
  dsimp only
  split
  case h_1 id found =>
    refine room.trans (room.closed.withStack fun other member => ?_)
    obtain rfl | member := List.mem_cons.mp member
    · exact room.closed.present _ (.inr (.inl (Array.mem_of_getElem? found)))
    · exact room.closed.present other (.inl member)
  case h_2 => exact room

/-- Storing keeps the frame closed. -/
private theorem Closed.store (closed : f.Closed) {slot : UInt16} (success : f.store slot = .ok g) :
    f.Develops g := by
  obtain ⟨⟨id, popped⟩, popping, returned⟩ := Except.bind_eq_ok_iff.mp success
  obtain rfl := Except.pure_eq_ok_iff.mp returned
  obtain ⟨taken, present⟩ := closed.pop popping
  have room := taken.closed.ensureLocal slot
  have labelled := room.closed.modifySame id
    (fun v =>
      { v with slot := some slot, origin := .localValue,
               definedAt := (popped.ensureLocal slot).pc + 1 })
    (fun v found target bound => room.closed.targets id v found target bound) fun _ => rfl
  have there := labelled.rises.mem (room.rises.mem present)
  exact ((taken.trans room).trans labelled).trans (labelled.closed.setLocal slot there)

/-- Incrementing a slot keeps the frame closed. -/
private theorem Closed.increment (closed : f.Closed) (slot : UInt16) (delta : Int) :
    f.Develops (f.increment slot delta) := by
  have room := closed.ensureLocal slot
  refine room.trans (room.closed.setNew slot ?_ ?_)
  · intro target bound
    cases found : (f.ensureLocal slot).local? slot with
    | none =>
        rw [found] at bound
        exact absurd bound (Variable.not_isBound_of_unbounded rfl rfl)
    | some v =>
        rw [found] at bound
        obtain ⟨id, -, present⟩ := Option.bind_eq_some_iff.mp found
        exact room.closed.targets id v present target (Variable.IsBound.increment bound)
  · intro possible
    cases found : (f.ensureLocal slot).local? slot with
    | none => exact Sign.noConfusion
    | some v =>
        obtain ⟨id, -, present⟩ := Option.bind_eq_some_iff.mp found
        exact Variable.increment_ne_bottom (possible id v present)

/-! ## Effects -/

/-- The bounds of a value are variables that there are. -/
private theorem Closed.isBound_value (closed : f.Closed) {target : VarId}
    (bound : (f.value id).IsBound target) : target ∈ f.vars := by
  unfold value at bound
  cases found : f.vars[id]? with
  | none =>
      rw [found] at bound
      exact absurd bound (Variable.not_isBound_of_unbounded rfl rfl)
  | some v =>
      rw [found] at bound
      exact closed.targets id v found target bound

/-- All values have possible signs. -/
private theorem Possible.value (possible : f.Possible) (id : VarId) :
    (f.value id).sign ≠ .bottom := by
  unfold Frame.value
  cases found : f.vars[id]? with
  | none => exact Sign.noConfusion
  | some v => exact possible id v found

/-- Checking an access keeps the frame closed. -/
private theorem Closed.checkAccess (closed : f.Closed) (access : Access)
    (present : access.array ∈ f.vars) : f.Develops (f.checkAccess access).1 := by
  unfold Frame.checkAccess
  split
  · exact closed.refl
  · refine closed.modifySame access.index _ (fun v found target bound => ?_) fun _ => rfl
    obtain member | member := bound
    · obtain same | member := Std.ExtTreeSet.mem_insert.mp member
      · exact Std.LawfulEqCmp.compare_eq_iff_eq.mp same ▸ present
      · exact closed.targets access.index v found target (.inl member)
    · exact closed.targets access.index v found target (.inr member)

/-- Reading from an array keeps the frame closed. -/
private theorem Closed.arrayLoad (closed : f.Closed) {kind : ElementKind} {unproved : Option Access}
    (success : f.arrayLoad kind = .ok (g, unproved)) : f.Develops g := by
  obtain ⟨⟨index, f₁⟩, popping, success⟩ := Except.bind_eq_ok_iff.mp success
  obtain ⟨⟨array, f₂⟩, popping', success⟩ := Except.bind_eq_ok_iff.mp success
  obtain ⟨rfl, -⟩ := Prod.mk.inj (Except.pure_eq_ok_iff.mp success)
  obtain ⟨first, -⟩ := closed.pop popping
  obtain ⟨second, present⟩ := first.closed.pop popping'
  have checked := second.closed.checkAccess { array, index } present
  exact ((first.trans second).trans checked).trans
    (checked.closed.pushUnbounded rfl rfl Sign.noConfusion)

/-- Writing to an array keeps the frame closed. -/
private theorem Closed.arrayStore (closed : f.Closed) {unproved : Option Access}
    (success : f.arrayStore = .ok (g, unproved)) : f.Develops g := by
  obtain ⟨⟨value, f₁⟩, popping, success⟩ := Except.bind_eq_ok_iff.mp success
  obtain ⟨⟨index, f₂⟩, popping', success⟩ := Except.bind_eq_ok_iff.mp success
  obtain ⟨⟨array, f₃⟩, popping'', success⟩ := Except.bind_eq_ok_iff.mp success
  obtain ⟨rfl, -⟩ := Prod.mk.inj (Except.pure_eq_ok_iff.mp success)
  obtain ⟨first, -⟩ := closed.pop popping
  obtain ⟨second, -⟩ := first.closed.pop popping'
  obtain ⟨third, present⟩ := second.closed.pop popping''
  exact ((first.trans second).trans third).trans (third.closed.checkAccess _ present)

/-- Taking the length of an array keeps the frame closed. -/
private theorem Closed.arrayLength (closed : f.Closed) (success : f.arrayLength = .ok g) :
    f.Develops g := by
  obtain ⟨⟨array, popped⟩, popping, returned⟩ := Except.bind_eq_ok_iff.mp success
  obtain rfl := Except.pure_eq_ok_iff.mp returned
  obtain ⟨taken, present⟩ := closed.pop popping
  refine taken.trans (taken.closed.push (fun target bound => ?_) fun _ => Sign.noConfusion)
  obtain member | member := bound
  · exact absurd member Std.ExtTreeSet.not_mem_empty
  · obtain same | member := Std.ExtTreeSet.mem_insert.mp member
    · exact Std.LawfulEqCmp.compare_eq_iff_eq.mp same ▸ present
    · exact absurd member Std.ExtTreeSet.not_mem_empty

/-- Arithmetic keeps the frame closed. -/
private theorem Closed.arithmetic (closed : f.Closed) {op : ArithmeticOp} {kind : NumericKind}
    (success : f.arithmetic op kind = .ok g) : f.Develops g := by
  unfold Frame.arithmetic at success
  split at success
  · obtain ⟨⟨operand, popped⟩, popping, returned⟩ := Except.bind_eq_ok_iff.mp success
    obtain rfl := Except.pure_eq_ok_iff.mp returned
    obtain ⟨taken, -⟩ := closed.pop popping
    exact taken.trans (taken.closed.pushUnbounded rfl rfl Sign.noConfusion)
  · obtain ⟨⟨rhs, f₁⟩, popping, success⟩ := Except.bind_eq_ok_iff.mp success
    obtain ⟨⟨lhs, f₂⟩, popping', returned⟩ := Except.bind_eq_ok_iff.mp success
    obtain rfl := Except.pure_eq_ok_iff.mp returned
    obtain ⟨first, -⟩ := closed.pop popping
    obtain ⟨second, -⟩ := first.closed.pop popping'
    refine (first.trans second).trans (second.closed.push (fun target bound => ?_) fun _ => ?_)
    · obtain bound | bound := bound.binary
      · exact second.closed.isBound_value bound
      · exact second.closed.isBound_value bound
    · exact Variable.binary_ne_bottom op _ _ kind _

/-- Operands may be replaced by a value without bounds. -/
private theorem Closed.replaceTop (closed : f.Closed) {count : Nat} (below : v.below = ∅)
    (atMost : v.atMost = ∅) (here : v.sign ≠ .bottom) (success : f.replaceTop count v = .ok g) :
    f.Develops g := by
  obtain ⟨⟨ids, popped⟩, popping, returned⟩ := Except.bind_eq_ok_iff.mp success
  obtain rfl := Except.pure_eq_ok_iff.mp returned
  have taken := closed.popN popping
  exact taken.trans (taken.closed.pushUnbounded below atMost here)

/-- Reading a field keeps the frame closed. -/
private theorem Closed.getField (closed : f.Closed) {isStatic : Bool} {descriptor : String}
    (success : f.getField isStatic descriptor = .ok g) : f.Develops g := by
  obtain ⟨⟨ids, popped⟩, popping, success⟩ := Except.bind_eq_ok_iff.mp success
  have taken := closed.popN popping
  cases parsed : FieldType.parse descriptor with
  | error error =>
      rw [parsed] at success
      cases success
  | ok type =>
      rw [parsed] at success
      obtain rfl := Except.pure_eq_ok_iff.mp success
      exact taken.trans (taken.closed.pushUnbounded rfl rfl Sign.noConfusion)

/-- Conversions keep the frame closed. -/
private theorem Closed.convert (closed : f.Closed) {source : NumericKind}
    {target : ConversionTarget} (success : f.convert source target = .ok g) : f.Develops g := by
  obtain ⟨⟨operand, popped⟩, popping, returned⟩ := Except.bind_eq_ok_iff.mp success
  obtain rfl := Except.pure_eq_ok_iff.mp returned
  obtain ⟨taken, -⟩ := closed.pop popping
  refine taken.trans (taken.closed.push (fun target bound => ?_) fun possible => ?_)
  · exact taken.closed.isBound_value bound.convert
  · exact Variable.convert_ne_bottom (possible.value operand)

/-- The jump of a `goto` says nothing about variables. -/
theorem Closed.jump (closed : f.Closed) (pendingJump : Option Nat) :
    f.Develops { f with pendingJump } :=
  ⟨⟨.of_older closed.present closed.targets closed.older, .refl f, rfl⟩, id⟩

/-- Effects of instructions develop closed frames. -/
theorem Closed.transfer (closed : f.Closed) {instruction : Instruction} {unproved : Option Access}
    (success : f.transfer instruction = .ok (g, unproved)) : f.Develops g := by
  unfold Frame.transfer at success
  -- What most instructions do besides an effect of their own: hand over its frame and no access.
  have handed {effect : Except AnalysisError Frame}
      (success :
        (effect >>= fun g => pure (g, none) : Except AnalysisError (Frame × Option Access)) =
          .ok (g, unproved)) :
      effect = .ok g := by
    obtain ⟨_, done, returned⟩ := Except.bind_eq_ok_iff.mp success
    obtain ⟨rfl, -⟩ := Prod.mk.inj (Except.pure_eq_ok_iff.mp returned)
    exact done
  have plain {h : Frame}
      (success : (pure (h, none) : Except AnalysisError (Frame × Option Access)) =
        .ok (g, unproved)) :
      h = g := (Prod.mk.inj (Except.pure_eq_ok_iff.mp success)).1
  cases instruction with
  | arrayLoad kind => exact closed.arrayLoad success
  | arrayStore kind => exact closed.arrayStore success
  | const value =>
      obtain rfl := plain success
      have unbounded := value.variable_unbounded f.pc
      exact closed.pushUnbounded unbounded.1 unbounded.2 (value.variable_ne_bottom f.pc)
  | load kind slot =>
      obtain rfl := plain success
      exact closed.load slot
  | store kind slot => exact closed.store (handed success)
  | increment slot delta =>
      obtain rfl := plain success
      exact closed.increment slot _
  | stack op => exact closed.shuffle (handed success)
  | arrayLength => exact closed.arrayLength (handed success)
  | newArray | multiNewArray | compare | instanceOf =>
      exact closed.replaceTop rfl rfl Sign.noConfusion (handed success)
  | arithmetic op kind => exact closed.arithmetic (handed success)
  | convert source target => exact closed.convert (handed success)
  | goto target =>
      obtain rfl := plain success
      exact closed.jump _
  | switch | monitor =>
      obtain ⟨⟨id, popped⟩, popping, returned⟩ := Except.bind_eq_ok_iff.mp success
      obtain rfl := plain returned
      exact (closed.pop popping).1
  | getField isStatic descriptor => exact closed.getField (handed success)
  | putField isStatic =>
      obtain ⟨⟨ids, popped⟩, popping, returned⟩ := Except.bind_eq_ok_iff.mp success
      obtain rfl := plain returned
      exact closed.popN popping
  | newObject className =>
      obtain rfl := plain success
      exact closed.pushUnbounded rfl rfl Sign.noConfusion
  | nop | checkCast | branch | invoke | invokeDynamic | throw | ret | unsupported =>
      obtain rfl := plain success
      exact closed.refl

/-! ## Assumptions -/

/-- Assuming a comparison keeps the frame closed. -/
private theorem Closed.assume (closed : f.Closed) (lhs : VarId) (relation : Relation)
    (rhs : VarId) : (f.assume lhs relation rhs).Closed := by
  unfold Frame.assume
  split
  case h_2 => exact closed
  case h_1 left right foundLeft foundRight =>
    have refined : (f.modify lhs (relation.refine · right)).Closed := by
      refine closed.modify lhs _ fun v found target bound => ?_
      obtain bound | bound := bound.refine
      · exact closed.targets lhs v found target bound
      · exact closed.targets rhs right foundRight target bound
    have same (id : VarId) (present : id ∈ f.vars) :
        id ∈ (f.modify lhs (relation.refine · right)).vars := by
      rw [Std.ExtTreeMap.mem_iff_isSome_getElem?] at present ⊢
      rw [vars_modify]
      split
      case isTrue equal => rwa [equal, Option.isSome_map]
      case isFalse => exact present
    dsimp only
    split
    · exact refined
    · refine refined.modify rhs _ fun v found target bound => ?_
      obtain bound | bound := bound.refine
      · exact refined.targets rhs v found target bound
      · exact same target (closed.targets lhs left foundLeft target bound)

/-- Assuming a comparison keeps all signs possible. -/
private theorem Possible.assume (possible : f.Possible) (lhs : VarId) (relation : Relation)
    (rhs : VarId) : (f.assume lhs relation rhs).Possible := by
  unfold Frame.assume
  split
  case h_2 => exact possible
  case h_1 left right foundLeft foundRight =>
    have refined : (f.modify lhs (relation.refine · right)).Possible := possible.modify lhs _
      fun v found => Variable.refine_ne_bottom (possible lhs v found)
      (possible rhs right foundRight)
    dsimp only
    split
    · exact refined
    · exact refined.modify rhs _ fun v found =>
        Variable.refine_ne_bottom (refined rhs v found) (possible lhs left foundLeft)

/-- Frames stay closed when a condition is assumed. -/
theorem Closed.assumeCondition (closed : f.Closed) (condition : Condition) (operands : List VarId)
    (holds : Bool) : (f.assumeCondition condition operands holds).Closed := by
  unfold Frame.assumeCondition
  split
  · dsimp only
    split
    · exact closed.assume _ _ _
    · exact closed
  · dsimp only
    split
    · exact closed.modify _ _ fun v found target bound => closed.targets _ v found target bound
    · exact closed
  · exact closed

/-- Assuming a condition makes nothing impossible. -/
theorem Possible.assumeCondition (possible : f.Possible) (condition : Condition)
    (operands : List VarId) (holds : Bool) :
    (f.assumeCondition condition operands holds).Possible := by
  unfold Frame.assumeCondition
  split
  · dsimp only
    split
    · exact possible.assume _ _ _
    · exact possible
  · dsimp only
    split
    case h_1 id comparison sign given =>
      obtain ⟨v, found, given⟩ := Option.bind_eq_some_iff.mp given
      exact possible.modify _ _ fun _ _ => Sign.given_ne_bottom (possible _ v found) given
    case h_2 => exact possible
  · exact possible

/-! ## Returns -/

/-- Any variable that is there may become the returned one. -/
theorem Closed.withReturned (closed : f.Closed) (present : id ∈ f.vars) :
    ({ f with returned := some id } : Frame).Closed := by
  refine .of_older ?_ closed.targets closed.older
  rintro other (member | member | returned)
  · exact closed.present other (.inl member)
  · exact closed.present other (.inr (.inl member))
  · exact Option.some.inj returned ▸ present

/-- Frames stay closed when a value is returned. -/
theorem Closed.recordReturn (closed : f.Closed) (present : id ∈ f.vars) :
    (f.recordReturn id).Closed := by
  unfold Frame.recordReturn
  split
  case h_2 => exact closed.withReturned present
  case h_1 previous latest _ _ =>
    split
    · exact closed
    · have grown :=
        closed.growsAlloc (v := { latest.clearBounds with sign := previous.sign.join latest.sign })
          fun _ bound => absurd bound (Variable.not_isBound_of_unbounded rfl rfl)
      exact grown.closed.withReturned (f.mem_alloc _)

/-- Returning a value makes nothing impossible. -/
theorem Possible.recordReturn (possible : f.Possible) (id : VarId) :
    (f.recordReturn id).Possible := by
  unfold Frame.recordReturn
  split
  case h_2 => exact possible
  case h_1 previous latest returned found =>
    split
    · exact possible
    · refine possible.alloc
        (v := { latest.clearBounds with sign := previous.sign.join latest.sign }) ?_
      obtain ⟨other, -, there⟩ := Option.bind_eq_some_iff.mp returned
      dsimp only [Sign.join]
      split
      · exact possible other previous there
      · exact possible id latest found

/-! ## Joins -/

variable {s o : Frame}

/-- What a join holds is a variable of it. -/
private theorem Merges.held (closed : s.Closed) (merges : s.Merges o f) (held : f.Held id) :
    id ∈ f.vars := by
  cases merges with
  | joined joined =>
      rw [Held, joined.stack_eq, joined.locals_eq, joined.returned_eq] at held
      exact joined.present id (closed.present id held)
  | @adopted f _ v joined fresh returned found =>
      obtain member | member | same := held
      · exact Std.ExtTreeMap.mem_insert.mpr
          (.inr (joined.present id (closed.present id (.inl (joined.stack_eq ▸ member)))))
      · exact Std.ExtTreeMap.mem_insert.mpr
          (.inr (joined.present id (closed.present id (.inr (.inl (joined.locals_eq ▸ member))))))
      · exact Option.some.inj same ▸ f.mem_alloc _

/-- A join is well-formed if the frame that is joined to is. -/
private theorem Merges.wellFormed (wellFormed : s.WellFormed) (merges : s.Merges o f) :
    f.WellFormed := by
  cases merges with
  | joined joined => exact joined.wellFormed wellFormed
  | @adopted f _ v joined fresh returned found =>
      have allocated : (f.alloc v.clearBounds).2.WellFormed :=
        (joined.wellFormed wellFormed).alloc fun target bound =>
          absurd bound (Variable.not_isBound_of_unbounded rfl rfl)
      exact { allocated with
        returned := fun id same => Option.some.inj same ▸ Nat.lt_succ_self f.nextId }

/-- A join keeps the receiving frame closed, whatever is joined into it. -/
theorem Closed.join (closed : s.Closed) (o : Frame) : (s.join o).1.Closed := by
  obtain ⟨f, merges, same⟩ := join_merges s o
  have held (id : VarId) (held : (s.join o).1.Held id) : id ∈ (s.join o).1.vars := by
    rw [same] at held ⊢
    change f.Held id at held
    obtain ⟨v, found⟩ := mem_vars_iff.mp (merges.held closed held)
    obtain ⟨w, found, -⟩ := collect_of_held held found
    exact mem_vars_iff.mpr ⟨w, found⟩
  refine .of_older held
    (fun id w found target bound => held target ((held_of_join found).2 target bound)) ?_
  rw [same]
  intro id present
  obtain ⟨w, found⟩ := mem_vars_iff.mp present
  obtain ⟨-, v, found, -⟩ := vars_collect found
  exact (merges.wellFormed closed.toWellFormed).keys id v found

/-- A join of possible frames is possible. -/
theorem Possible.join (possible : s.Possible) (other : o.Possible) : (s.join o).1.Possible := by
  obtain ⟨f, merges, same⟩ := join_merges s o
  rw [same]
  have weakened {f : Frame} (joined : s.Joined o (s.pairs o) f) : f.Possible := by
    intro id w found
    obtain ⟨v, found, weaker⟩ := joined.weaker id w found
    exact Sign.ne_bottom_of_le weaker.sign (possible id v found)
  have merged : f.Possible := by
    cases merges with
    | joined joined => exact weakened joined
    | @adopted f id v joined fresh returned found =>
        have here : v.clearBounds.sign ≠ .bottom := other id v found
        exact (weakened joined).alloc here
  intro id w found
  obtain ⟨-, v, found, weaker, -⟩ := vars_collect found
  exact Sign.ne_bottom_of_le weaker.sign (merged id v found)

end Frame

end ArrayBounds
