import ArrayBounds.Proofs.Domain.Edits
import ArrayBounds.Proofs.Domain.Garbage

/-! # Counters

What is known about the counter of a loop over an array. At the head of the loop the counter is in
the second slot and nowhere else, and its sign tells whether it may be negative
(`ArrayBounds.Frame.Counts`). Behind the test it is moreover known to be less than the length of the
array in the first slot (`ArrayBounds.Frame.Guards`). A join weakens the counter by the counter of
the other frame only, since no other position holds it (`ArrayBounds.Frame.Counts.join`).
-/

namespace ArrayBounds

open Program

/-! ## Signs -/

/-- The sign is that of a number that may occur, and rules out negative numbers exactly if
`known`. -/
def Sign.Tells (known : Bool) (sign : Sign) : Prop :=
  sign ≠ .bottom ∧ sign.isNonNegative = known

/-- The sign is that of a number that may occur, and rules out negative numbers if `known`. -/
def Sign.Allows (known : Bool) (sign : Sign) : Prop :=
  sign ≠ .bottom ∧ (known = true → sign.isNonNegative = true)

/-- A sign that tells whether numbers are negative allows for what is the case. -/
theorem Sign.Tells.allows {known : Bool} {sign : Sign} (tells : sign.Tells known) :
    sign.Allows known :=
  ⟨tells.1, fun holds => tells.2.trans holds⟩

/-- The sign of a constant tells whether it is negative. -/
theorem Sign.tells_ofInt (value : Int) : (Sign.ofInt value).Tells (decide (0 ≤ value)) := by
  unfold ofInt
  split
  case isTrue positive => exact ⟨Sign.noConfusion, (decide_eq_true (Int.le_of_lt positive)).symm⟩
  case isFalse =>
    split
    case isTrue zero => exact ⟨Sign.noConfusion, (decide_eq_true (Int.le_of_eq zero.symm)).symm⟩
    case isFalse => exact ⟨Sign.noConfusion, (decide_eq_false (by omega)).symm⟩

/-- A join with an allowed sign tells what the other side tells. -/
private theorem Sign.Tells.join {known : Bool} {a b : Sign} (left : a.Allows known)
    (right : b.Tells known) : (a.join b).Tells known := by
  unfold Allows at left
  unfold Tells at right ⊢
  revert left right
  cases a <;> cases b <;> cases known <;> decide

/-- A meet with a sign that is not negative is allowed. -/
private theorem Sign.Allows.meet {known : Bool} {a b : Sign} (left : a.Allows known)
    (right : b.isNonNegative = true) : (a.meet b).Allows known := by
  unfold Allows at left ⊢
  revert left right
  cases a <;> cases b <;> cases known <;> decide

/-- A positive increment keeps what is told of a sign. -/
private theorem Variable.tells_increment {known : Bool} {v : Variable} {delta : Int}
    (definedAt : Nat) (tells : v.sign.Tells known) (forward : 0 < delta) :
    (v.increment delta definedAt).sign.Tells known := by
  have raised : (if v.sign = .nonNegative then .positive else v.sign).Tells known := by
    split
    case isTrue sign =>
      rw [sign] at tells
      exact ⟨Sign.noConfusion, tells.2⟩
    case isFalse => exact tells
  unfold increment
  dsimp only
  rw [if_neg (Int.ne_of_gt forward)]
  by_cases one : delta = 1
  · rw [if_pos one]
    exact raised
  · rw [if_neg one, if_neg (by omega), if_pos (by omega)]
    exact raised

namespace Frame

variable {f g s o : Frame} {known : Bool} {P Q : Sign → Prop} {array counter id : VarId}
  {v : Variable}

/-! ## At the head of the loop -/

/-- The second slot holds the counter and no other position does. -/
structure Counts (P : Sign → Prop) (f : Frame) (counter : VarId) : Prop where
  slot : f.locals[1]? = some counter
  alone : ∀ i, f.locals[i]? = some counter → i = 1
  aside : counter ∉ f.stack
  unreturned : f.returned = none
  found : ∃ v, f.vars[counter]? = some v ∧ P v.sign

/-- Less may be asked of the sign of a counter. -/
theorem Counts.imp (counts : f.Counts P counter) (implies : ∀ sign, P sign → Q sign) :
    f.Counts Q counter := by
  obtain ⟨v, found, sign⟩ := counts.found
  exact ⟨counts.slot, counts.alone, counts.aside, counts.unreturned, v, found, implies _ sign⟩

/-- Only the variables and the positions matter. -/
theorem Counts.congr (counts : f.Counts P counter) (stack : g.stack = f.stack)
    (locals : g.locals = f.locals) (returned : g.returned = f.returned)
    (vars : g.vars[counter]? = f.vars[counter]?) : g.Counts P counter := by
  refine ⟨?_, ?_, ?_, returned.trans counts.unreturned, ?_⟩
  · rw [locals]
    exact counts.slot
  · rw [locals]
    exact counts.alone
  · rw [stack]
    exact counts.aside
  · rw [vars]
    exact counts.found

private theorem Counts.held (counts : f.Counts P counter) : f.Held counter :=
  .inr (.inl (Array.mem_of_getElem? counts.slot))

/-- In front of the counter there is a slot for the array. -/
theorem Counts.exists_first (counts : f.Counts P counter) : ∃ array, f.locals[0]? = some array := by
  obtain ⟨inside, -⟩ := Array.getElem?_eq_some_iff.mp counts.slot
  exact ⟨_, Array.getElem?_eq_getElem (Nat.lt_of_succ_lt inside)⟩

/-- New slots hold new variables. -/
theorem locals_addLocals {count i : Nat} (held : (f.addLocals count).locals[i]? = some id) :
    f.locals[i]? = some id ∨ f.nextId ≤ id := by
  induction count generalizing f with
  | zero => exact .inl held
  | succ count ih =>
      rcases ih held with held | new
      · change (f.locals.push f.nextId)[i]? = some id at held
        rw [Array.getElem?_push] at held
        split at held
        · exact .inr (Nat.le_of_eq (Option.some.inj held))
        · exact .inl held
      · exact .inr (Nat.le_of_succ_le new)

private theorem stack_addLocals (f : Frame) (count : Nat) :
    (f.addLocals count).stack = f.stack := by
  induction count generalizing f with
  | zero => rfl
  | succ count ih => exact ih _

/-- Storing puts the top of the stack into the slot. Other slots keep what they hold, or are new. -/
theorem positions_store {slot : UInt16} (success : f.store slot = .ok g) :
    ∃ id, f.stack = id :: g.stack ∧ g.locals[slot.toNat]? = some id ∧
      ∀ i other, i ≠ slot.toNat → g.locals[i]? = some other → f.locals[i]? = some other ∨
        f.nextId ≤ other := by
  obtain ⟨⟨id, popped⟩, popping, returned⟩ := Except.bind_eq_ok_iff.mp success
  obtain rfl := Except.pure_eq_ok_iff.mp returned
  obtain ⟨rest, stack, rfl⟩ := pop_eq_ok_iff.mp popping
  let room : Frame := Frame.ensureLocal { f with stack := rest } slot
  have size : slot.toNat < room.locals.size := by
    change _ < (addLocals _ _).locals.size
    rw [size_addLocals]
    omega
  refine ⟨id, ?_, ?_, fun i other elsewhere held => ?_⟩
  · rw [stack, modify_eq]
    exact congrArg (id :: ·) (stack_addLocals { f with stack := rest } _).symm
  · rw [modify_eq]
    exact Array.getElem?_setIfInBounds_self_of_lt size
  · rw [modify_eq] at held
    rcases locals_setLocal held with ⟨here, -⟩ | ⟨-, held⟩
    · exact absurd here elsewhere
    · exact locals_addLocals (f := { f with stack := rest }) held

/-- A variable that is only on the stack becomes a counter when it is stored. -/
theorem Closed.counts_store {rest : List VarId} (closed : f.Closed)
    (stack : f.stack = counter :: rest) (aside : counter ∉ rest) (absent : counter ∉ f.locals)
    (unreturned : f.returned = none) (found : f.vars[counter]? = some v) (sign : P v.sign)
    (success : f.store 1 = .ok g) : g.Counts P counter := by
  have edits := edits_store success
  have drawn : counter < f.nextId := closed.held (.inl (stack ▸ List.mem_cons_self))
  obtain ⟨id, stack', slot, elsewhere⟩ := positions_store success
  obtain ⟨rfl, rfl⟩ := List.cons.inj (stack.symm.trans stack')
  obtain ⟨w, there, sign', -⟩ := edits.enriches.exists_var drawn found
  refine ⟨slot, fun i held => ?_, aside, edits.returned_eq.trans unreturned, w, there, sign' ▸ sign⟩
  by_contra other
  rcases elsewhere i counter other held with held | new
  · exact absent (Array.mem_of_getElem? held)
  · exact absurd drawn (Nat.not_lt_of_le new)

private theorem ensureLocal_of_local {slot : UInt16} (held : f.locals[slot.toNat]? = some id) :
    f.ensureLocal slot = f := by
  obtain ⟨inside, -⟩ := Array.getElem?_eq_some_iff.mp held
  rw [Frame.ensureLocal, Nat.sub_eq_zero_of_le inside, addLocals]

/-- Loading from a slot that is there pushes what it holds. -/
theorem load_of_local {slot : UInt16} (held : f.locals[slot.toNat]? = some id) :
    f.load slot = f.pushId id := by
  rw [load, ensureLocal_of_local held, localId?, held]

/-- Incrementing a slot that is there gives it a new variable. -/
theorem increment_of_local {slot : UInt16} {delta : Int} (held : f.locals[slot.toNat]? = some id)
    (found : f.vars[id]? = some v) :
    f.increment slot delta =
      (f.alloc { v.increment delta f.pc with slot := some slot }).2.setLocal slot f.nextId := by
  have value : f.local? slot = some v := by
    rw [local?, localId?, held, Option.bind_some, found]
  rw [increment, ensureLocal_of_local held]
  dsimp only
  rw [value]
  rfl

/-! ## Behind the test -/

/-- The second slot holds a variable that is known to be less than the length of the array in the
first slot. -/
structure Guards (known : Bool) (f : Frame) (array counter : VarId) : Prop where
  first : f.locals[0]? = some array
  second : f.locals[1]? = some counter
  unreturned : f.returned = none
  found : ∃ v, f.vars[counter]? = some v ∧ v.sign.Tells known ∧ array ∈ v.below

/-- Edits that write neither of the two slots keep the counter below the length of the array. -/
theorem Guards.edits {written : Option UInt16} (guards : f.Guards known array counter)
    (closed : f.Closed) (edits : f.Edits written g) (kept : written ≠ some 0 ∧ written ≠ some 1) :
    g.Guards known array counter := by
  have other {i : Nat} (slot : UInt16) (named : written = some slot) (outside : i = 0 ∨ i = 1) :
      slot.toNat ≠ i := by
    rintro rfl
    rcases outside with zero | one
    · exact kept.1 (named.trans (congrArg some (UInt16.toNat_inj.mp zero)))
    · exact kept.2 (named.trans (congrArg some (UInt16.toNat_inj.mp one)))
  obtain ⟨v, found, tells, bounded⟩ := guards.found
  have drawn : counter < f.nextId := closed.held (.inr (.inl (Array.mem_of_getElem? guards.second)))
  obtain ⟨w, there, sign, below⟩ := edits.enriches.exists_var drawn found
  refine ⟨edits.locals_eq ?_ guards.first, edits.locals_eq ?_ guards.second,
    edits.returned_eq.trans guards.unreturned, w, there, sign ▸ tells, below array bounded⟩
  · exact fun slot named => other slot named (.inl rfl)
  · exact fun slot named => other slot named (.inr rfl)

/-- The step makes a new counter. -/
theorem Guards.counts_increment {delta : Int} (guards : f.Guards known array counter)
    (closed : f.Closed) (forward : 0 < delta) :
    (f.increment 1 delta).Counts (Sign.Tells known) f.nextId := by
  obtain ⟨v, found, tells, -⟩ := guards.found
  have second : f.locals[(1 : UInt16).toNat]? = some counter := guards.second
  have fresh {id : VarId} (held : f.Held id) : id ≠ f.nextId := Nat.ne_of_lt (closed.held held)
  obtain ⟨inside, -⟩ := Array.getElem?_eq_some_iff.mp guards.second
  rw [increment_of_local second found]
  refine ⟨?_, fun i held => ?_, ?_, guards.unreturned,
    { v.increment delta f.pc with slot := some 1 }, ?_, Variable.tells_increment f.pc tells forward⟩
  · exact Array.getElem?_setIfInBounds_self_of_lt inside
  · rcases locals_setLocal held with ⟨here, -⟩ | ⟨-, held⟩
    · exact here
    · exact absurd rfl (fresh (.inr (.inl (Array.mem_of_getElem? held))))
  · exact fun onStack => fresh (.inl onStack) rfl
  · exact (vars_alloc f _ _).trans (if_pos rfl)

/-! ## The test -/

section

variable {bound : VarId} {w : Variable}

/-- An assumption refines the variable on its left-hand side. -/
private theorem vars_assume (relation : Relation) (differ : counter ≠ bound)
    (left : f.vars[counter]? = some v) (right : f.vars[bound]? = some w) :
    (f.assume counter relation bound).vars[counter]? = some (relation.refine v w) := by
  unfold assume
  simp only [left, right, differ, ↓reduceIte]
  rw [vars_modify, if_neg differ.symm, vars_modify, if_pos rfl, left, Option.map_some]

/-- The test makes sure that the counter is less than the length. -/
theorem Counts.guards (counts : f.Counts (Sign.Tells known) counter)
    (first : f.locals[0]? = some array) (differ : counter ≠ bound) (found : f.vars[bound]? = some w)
    (bounded : array ∈ w.atMost) :
    (f.assumeCondition (.ints .ge) [counter, bound] false).Guards known array counter := by
  obtain ⟨v, here, tells⟩ := counts.found
  change (f.assume counter .lt bound).Guards known array counter
  have refined := vars_assume .lt differ here found
  rw [assume_eq]
  exact ⟨first, counts.slot, counts.unreturned, _, refined, tells,
    Std.ExtTreeSet.mem_union_iff.mpr (.inr bounded)⟩

/-- Where the test fails, the counter is not less than the length, which cannot make it negative. -/
theorem Counts.allows (counts : f.Counts (Sign.Tells known) counter) (differ : counter ≠ bound)
    (found : f.vars[bound]? = some w) :
    (f.assumeCondition (.ints .ge) [counter, bound] true).Counts (Sign.Allows known) counter := by
  obtain ⟨v, here, tells⟩ := counts.found
  change (f.assume counter .ge bound).Counts _ counter
  have refined := vars_assume .ge differ here found
  have allows : (v.refineGe w).sign.Allows known := by
    -- The length may lend its sign to a counter of which nothing was known.
    unfold Variable.refineGe
    split
    case isTrue sign => exact tells.allows.meet sign
    case isFalse => exact tells.allows
  rw [assume_eq]
  exact ⟨counts.slot, counts.alone, counts.aside, counts.unreturned, _, refined, allows⟩

end

/-! ## Joins -/

/-- A counter is paired with the counter of the other frame only. -/
theorem Counts.mem_pairs_iff (counts : s.Counts P counter) (slot : o.locals[1]? = some id)
    (theirs : VarId) : (counter, theirs) ∈ s.pairs o ↔ theirs = id := by
  have inSlot : (counter, theirs) ∈ s.locals.toList.zip o.locals.toList ↔ theirs = id := by
    rw [List.mem_iff_getElem?]
    simp only [List.getElem?_zip_eq_some, Array.getElem?_toList]
    constructor
    · rintro ⟨i, held, held'⟩
      rw [counts.alone i held, slot] at held'
      exact (Option.some.inj held').symm
    · rintro rfl
      exact ⟨1, counts.slot, slot⟩
  have notOnStack : (counter, theirs) ∉ s.stack.reverse.zip o.stack.reverse := fun onStack =>
    counts.aside (List.mem_reverse.mp (List.of_mem_zip onStack).1)
  have notReturned : s.returned ≠ some counter := by
    rw [counts.unreturned]
    exact (Option.some_ne_none counter).symm
  rw [mem_pairs, commonPositions, List.mem_append, inSlot, or_iff_right notOnStack,
    or_iff_left fun pair => notReturned pair.1]

/-- Joining the frame at the end of a pass into the one at its start keeps the counter. -/
theorem Counts.join (counts : s.Counts (Sign.Allows known) counter) (closed : s.Closed)
    (other : o.Counts (Sign.Tells known) id) : (s.join o).1.Counts (Sign.Tells known) counter := by
  obtain ⟨v, here, allows⟩ := counts.found
  obtain ⟨v', there, tells⟩ := other.found
  obtain ⟨u, w, merged, after, -, restricts⟩ := closed.toDrawn.exists_join (o := o) counts.held here
  have partner := counts.mem_pairs_iff other.slot
  -- With a single partner, the sign that is left is the join of the two.
  have sign : u.sign = v.sign.join v'.sign := by
    apply Sign.eq_of_le_iff
    intro a
    rw [(leaves_merged here merged).sign, Sign.join_le_iff]
    apply and_congr_right
    intro _
    constructor
    · intro covers
      exact covers id v' ((partner id).mpr rfl) there
    · intro covers theirs v'' paired found
      rw [(partner theirs).mp paired, there] at found
      exact Option.some.inj found ▸ covers
  refine ⟨?_, ?_, ?_, ?_, w, after, ?_⟩
  · rw [join_locals]
    exact counts.slot
  · rw [join_locals]
    exact counts.alone
  · rw [join_stack]
    exact counts.aside
  · rw [returned_join_of_known (.inr (by rw [returnedValue?, other.unreturned, Option.bind_none]))]
    exact counts.unreturned
  · rw [restricts.sign_eq, sign]
    exact .join allows tells

end Frame

end ArrayBounds
