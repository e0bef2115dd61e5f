import ArrayBounds.Proofs.Domain.Closed

/-! # What the returned value covers

A frame keeps one variable for all values that its path has returned, and the sign of this variable
has to admit each of them (`ArrayBounds.Frame.cover`). Recording a return and joining frames let the
sign grow. Effects of instructions leave it alone.

An assumption can refine the returned variable, because the first value that is returned is recorded
as it is, and a slot may hold it too. But of the two sides of a branch, at least one leaves a given
sign as it is (`ArrayBounds.Frame.cover_assumeCondition`).
-/

namespace ArrayBounds

open Program

/-- Everything covers the impossible sign. -/
theorem Sign.bottom_le (sign : Sign) : .bottom ≤ sign :=
  Nat.zero_le _

/-- Assuming that a value is small does not lose its sign. -/
private theorem Sign.le_given {comparison : Comparison} {sign sign' : Sign}
    (small : comparison = .lt ∨ comparison = .le)
    (given : Sign.given comparison sign = some sign') : sign ≤ sign' := by
  obtain rfl | rfl := small
  · obtain rfl := Option.some.inj given
    cases sign <;> decide
  · obtain rfl := Option.some.inj given
    cases sign <;> decide

namespace Frame

variable {f g s o : Frame} {v : Variable} {id other : VarId}

/-- The sign of the variable with the given number. -/
def signAt (f : Frame) (id : VarId) : Sign :=
  (f.vars[id]?.map (·.sign)).getD .bottom

/-- The sign that admits all values returned so far. -/
def cover (f : Frame) : Sign :=
  (f.returned.map f.signAt).getD .bottom

private theorem signAt_of_found (found : f.vars[id]? = some v) : f.signAt id = v.sign := by
  rw [signAt, found, Option.map_some, Option.getD_some]

private theorem cover_of_returned (returned : f.returned = some id) : f.cover = f.signAt id := by
  rw [cover, returned, Option.map_some, Option.getD_some]

private theorem cover_of_not_returned (silent : f.returned = none) : f.cover = .bottom := by
  rw [cover, silent, Option.map_none, Option.getD_none]

/-- A frame that returns a new variable covers what this variable admits. -/
theorem cover_alloc (f : Frame) (v : Variable) :
    ({ (f.alloc v).2 with returned := some f.nextId } : Frame).cover = v.sign := by
  have found : (f.alloc v).2.vars[f.nextId]? = some v :=
    (vars_alloc f v f.nextId).trans (if_pos rfl)
  exact (cover_of_returned rfl).trans (signAt_of_found found)

/-- A frame that gives the returned variable no smaller sign covers no less. -/
theorem cover_le_cover (same : g.returned = f.returned)
    (le : ∀ id, f.returned = some id → f.signAt id ≤ g.signAt id) : f.cover ≤ g.cover := by
  cases returned : f.returned with
  | none =>
      rw [cover_of_not_returned returned]
      exact Sign.bottom_le _
  | some id =>
      rw [cover_of_returned returned, cover_of_returned (same.trans returned)]
      exact le id returned

/-- Signs rise with the frame. -/
private theorem Rises.signAt_le (rises : f.Rises g) (id : VarId) : f.signAt id ≤ g.signAt id := by
  cases found : f.vars[id]? with
  | none =>
      rw [signAt, found]
      exact Sign.bottom_le _
  | some v =>
      obtain ⟨w, there, le⟩ := rises id v found
      rw [signAt_of_found found, signAt_of_found there]
      exact le

/-- Growth keeps what has been returned covered. -/
theorem Grows.cover_le (grows : f.Grows g) : f.cover ≤ g.cover :=
  cover_le_cover grows.returned fun id _ => grows.rises.signAt_le id

/-! ## Recording a return -/

/-- What was covered before stays so, and the value that is returned is covered. -/
theorem recordReturn_covers (closed : f.Closed) (found : f.vars[id]? = some v) :
    f.cover ≤ (f.recordReturn id).cover ∧ v.sign ≤ (f.recordReturn id).cover := by
  unfold recordReturn
  cases silent : f.returnedValue? with
  | none =>
      have nothing : f.returned = none := by
        cases returned : f.returned with
        | none => rfl
        | some other =>
            obtain ⟨w, there⟩ := mem_vars_iff.mp (closed.present other (.inr (.inr returned)))
            rw [returnedValue?, returned, Option.bind_some, there] at silent
            cases silent
      dsimp only
      rw [cover_of_not_returned nothing,
        cover_of_returned (f := { f with returned := some id }) rfl]
      exact ⟨Sign.bottom_le _, Nat.le_of_eq (congrArg Sign.rank (signAt_of_found found)).symm⟩
  | some previous =>
      obtain ⟨earlier, returned, there⟩ := Option.bind_eq_some_iff.mp silent
      rw [cover_of_returned returned, signAt_of_found there]
      simp only [found]
      split
      case isTrue same =>
        -- The same variable is returned again.
        obtain rfl := Option.some.inj (returned.symm.trans same)
        rw [cover_of_returned returned, signAt_of_found there]
        obtain rfl := Option.some.inj (there.symm.trans found)
        exact ⟨Nat.le_refl _, Nat.le_refl _⟩
      case isFalse =>
        have covered := cover_alloc f { v.clearBounds with sign := previous.sign.join v.sign }
        constructor
        · exact Nat.le_trans (Sign.le_join_left _ _)
            (Nat.le_of_eq (congrArg Sign.rank covered.symm))
        · exact Nat.le_trans (Sign.le_join_right _ _)
            (Nat.le_of_eq (congrArg Sign.rank covered.symm))

/-! ## Joins -/

/-- Collecting loses nothing that is returned. -/
private theorem cover_collect (f : Frame) : f.collect.cover = f.cover := by
  cases returned : f.returned with
  | none => rw [cover_of_not_returned returned, cover_of_not_returned (f := f.collect) returned]
  | some id =>
      rw [cover_of_returned returned, cover_of_returned (f := f.collect) returned]
      cases found : f.vars[id]? with
      | none =>
          cases kept : f.collect.vars[id]? with
          | none => rw [signAt, signAt, found, kept]
          | some w =>
              obtain ⟨-, v, present, -⟩ := vars_collect kept
              rw [found] at present
              cases present
      | some v =>
          obtain ⟨w, kept, same⟩ := collect_of_held (.inr (.inr returned)) found
          rw [signAt_of_found found, signAt_of_found kept, same]

/-- Joined frames cover what both sides have returned. -/
theorem join_covers (closed : s.Closed) (closed' : o.Closed) :
    s.cover ≤ (s.join o).1.cover ∧ o.cover ≤ (s.join o).1.cover := by
  obtain ⟨f, merges, same⟩ := join_merges s o
  rw [same, cover_collect]
  cases merges with
  | joined joined known =>
      cases mine : s.returned with
      | none =>
          have silent : o.returned = none := by
            cases theirs : o.returned with
            | none => rfl
            | some id =>
                obtain ⟨v, there⟩ := mem_vars_iff.mp (closed'.present id (.inr (.inr theirs)))
                rw [mine, returnedValue?, theirs, Option.bind_some, there] at known
                simp at known
          rw [cover_of_not_returned mine, cover_of_not_returned silent]
          exact ⟨Sign.bottom_le _, Sign.bottom_le _⟩
      | some id =>
          obtain ⟨w, left⟩ :=
            mem_vars_iff.mp (joined.present id (closed.present id (.inr (.inr mine))))
          rw [cover_of_returned (joined.returned_eq.trans mine), signAt_of_found left]
          constructor
          · obtain ⟨v, found, weaker⟩ := joined.weaker id w left
            rw [cover_of_returned mine, signAt_of_found found]
            exact weaker.sign
          · cases theirs : o.returned with
            | none =>
                rw [cover_of_not_returned theirs]
                exact Sign.bottom_le _
            | some other =>
                obtain ⟨v, found⟩ := mem_vars_iff.mp (closed'.present other (.inr (.inr theirs)))
                rw [cover_of_returned theirs, signAt_of_found found]
                exact (joined.shares id other (mem_pairs.mpr (.inr ⟨mine, theirs⟩))
                  w v left found).sign
  | @adopted f id v joined fresh returned found =>
      rw [cover_of_not_returned fresh, cover_of_returned returned,
        signAt_of_found found, cover_alloc]
      exact ⟨Sign.bottom_le _, Nat.le_refl _⟩

/-! ## The two sides of a branch -/

private theorem signAt_modify_of_ne (f : Frame) {change : Variable → Variable}
    (different : id ≠ other) : (f.modify id change).signAt other = f.signAt other := by
  rw [signAt, signAt, vars_modify, if_neg different]

/-- A change that raises the sign of its variable raises all signs. -/
private theorem signAt_le_modify (f : Frame) (id other : VarId) {change : Variable → Variable}
    (le : ∀ v, f.vars[id]? = some v → v.sign ≤ (change v).sign) :
    f.signAt other ≤ (f.modify id change).signAt other := by
  by_cases same : id = other
  · subst same
    cases found : f.vars[id]? with
    | none =>
        rw [signAt, found]
        exact Sign.bottom_le _
    | some v =>
        have changed : (f.modify id change).vars[id]? = some (change v) := by
          rw [vars_modify, if_pos rfl, found, Option.map_some]
        rw [signAt_of_found found, signAt_of_found changed]
        exact le v found
  · rw [signAt_modify_of_ne f same]
    exact Nat.le_refl _

/-- A smaller value learns nothing about its sign, and the larger one only if it is another
variable. -/
theorem signAt_le_assume_of_less {lhs rhs : VarId} {relation : Relation}
    (less : relation = .lt ∨ relation = .le) (apart : other ≠ rhs ∨ lhs = rhs) :
    f.signAt other ≤ (f.assume lhs relation rhs).signAt other := by
  unfold Frame.assume
  split
  case h_2 => exact Nat.le_refl _
  case h_1 left right _ _ =>
    have refined : f.signAt other ≤ (f.modify lhs (relation.refine · right)).signAt other := by
      refine signAt_le_modify f lhs other fun v _ => ?_
      obtain rfl | rfl := less
      · exact Nat.le_refl _
      · exact Nat.le_refl _
    dsimp only
    split
    case isTrue => exact refined
    case isFalse different =>
      rw [signAt_modify_of_ne _ (apart.resolve_right different).symm]
      exact refined

/-- A larger value may learn that it is positive, but the smaller one learns nothing. -/
theorem signAt_le_assume_of_greater {lhs rhs : VarId} {relation : Relation}
    (greater : relation = .gt ∨ relation = .ge) (apart : other ≠ lhs) :
    f.signAt other ≤ (f.assume lhs relation rhs).signAt other := by
  unfold Frame.assume
  split
  case h_2 => exact Nat.le_refl _
  case h_1 left right _ _ =>
    dsimp only
    split
    case isTrue =>
      rw [signAt_modify_of_ne _ apart.symm]
      exact Nat.le_refl _
    case isFalse =>
      refine Nat.le_trans ?_ (signAt_le_modify _ rhs other fun v _ => ?_)
      · rw [signAt_modify_of_ne _ apart.symm]
      · obtain rfl | rfl := greater
        · exact Nat.le_refl _
        · exact Nat.le_refl _

/-- A comparison of two numbers leaves a sign alone on the side where it holds or where it does
not. -/
theorem signAt_le_assume (comparison : Comparison) (lhs rhs : VarId) :
    f.signAt other ≤ (f.assumeCondition (.ints comparison) [lhs, rhs] true).signAt other ∨
      f.signAt other ≤ (f.assumeCondition (.ints comparison) [lhs, rhs] false).signAt other := by
  cases comparison with
  | eq => exact .inr (Nat.le_refl _)
  | ne => exact .inl (Nat.le_refl _)
  | lt | le =>
      by_cases apart : other ≠ rhs ∨ lhs = rhs
      · exact .inl (signAt_le_assume_of_less (by simp) apart)
      · rw [not_or, not_not] at apart
        exact .inr (signAt_le_assume_of_greater (by simp) (apart.1 ▸ Ne.symm apart.2))
  | gt | ge =>
      by_cases apart : other ≠ rhs ∨ lhs = rhs
      · exact .inr (signAt_le_assume_of_less (by simp) apart)
      · rw [not_or, not_not] at apart
        exact .inl (signAt_le_assume_of_greater (by simp) (apart.1 ▸ Ne.symm apart.2))

/-- A test against zero leaves a sign alone on the side of the smaller numbers. -/
theorem signAt_le_assumeZero {comparison : Comparison}
    (small : comparison = .lt ∨ comparison = .le ∨ comparison = .ne) (id : VarId) :
    f.signAt other ≤ (match f.vars[id]?.bind (Sign.given comparison ·.sign) with
      | some sign => f.assumeSign id sign
      | none => f).signAt other := by
  split
  case h_2 => exact Nat.le_refl _
  case h_1 sign given =>
    refine signAt_le_modify f id other fun v found => ?_
    rw [found, Option.bind_some] at given
    obtain rfl | rfl | rfl := small
    · exact Sign.le_given (.inl rfl) given
    · exact Sign.le_given (.inr rfl) given
    · cases given

/-- On one of the two sides of a condition a sign is not lost. -/
private theorem signAt_assumeCondition (f : Frame) (condition : Condition) (operands : List VarId)
    (other : VarId) :
    f.signAt other ≤ (f.assumeCondition condition operands true).signAt other ∨
      f.signAt other ≤ (f.assumeCondition condition operands false).signAt other := by
  cases condition with
  | ints comparison =>
      rcases operands with _ | ⟨lhs, _ | ⟨rhs, _ | ⟨_, _⟩⟩⟩
      case cons.cons.nil => exact signAt_le_assume comparison lhs rhs
      all_goals exact .inl (Nat.le_refl _)
  | zero comparison =>
      rcases operands with _ | ⟨id, _ | ⟨_, _⟩⟩
      case cons.nil =>
        cases comparison with
        | lt | le | ne => exact .inl (signAt_le_assumeZero (by simp) id)
        | eq | ge | gt => exact .inr (signAt_le_assumeZero (by simp [Comparison.negate]) id)
      all_goals exact .inl (Nat.le_refl _)
  | _ => exact .inl (Nat.le_refl _)

private theorem returned_assumeCondition (f : Frame) (condition : Condition) (operands : List VarId)
    (holds : Bool) : (f.assumeCondition condition operands holds).returned = f.returned := by
  rw [assumeCondition_eq]

/-- Whatever a branch tests, at least one of its sides covers what has been returned before. -/
theorem cover_assumeCondition (f : Frame) (condition : Condition) (operands : List VarId) :
    f.cover ≤ (f.assumeCondition condition operands true).cover ∨
      f.cover ≤ (f.assumeCondition condition operands false).cover := by
  cases returned : f.returned with
  | none =>
      rw [cover_of_not_returned returned]
      exact .inl (Sign.bottom_le _)
  | some id =>
      have same (holds : Bool) : (f.assumeCondition condition operands holds).returned = some id :=
        (f.returned_assumeCondition condition operands holds).trans returned
      rw [cover_of_returned returned, cover_of_returned (same true), cover_of_returned (same false)]
      exact f.signAt_assumeCondition condition operands id

end Frame

end ArrayBounds
