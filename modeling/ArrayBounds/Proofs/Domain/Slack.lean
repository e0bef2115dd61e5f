import ArrayBounds.Proofs.Soundness.Join
import Mathlib.Algebra.Order.BigOperators.Group.Finset
import Mathlib.Data.Set.Card

/-! # How often joins can change a frame

A join that changes a frame makes it forget something: the sign of a variable goes up in the chain,
or a variable loses a bound, or a path that has not returned takes over a returned value. There is
only so much to forget. The signs of the variables in a frame can go up three times each, and bounds
are only ever lost. So of any number of frames that are joined into one frame, one after the other,
only so many can change it (`ArrayBounds.Frame.encard_changes_le`).

What a frame can still forget is counted exactly by `ArrayBounds.Frame.knowledge`; the bound that
does not look at signs is `ArrayBounds.Frame.slack`.
-/

namespace ArrayBounds

/-- There are four signs. -/
theorem Sign.rank_le (sign : Sign) : sign.rank ≤ 3 := by
  cases sign <;> decide

/-- How often the variable can be weakened at most. -/
def Variable.knowledge (v : Variable) : Nat :=
  (3 - v.sign.rank) + v.below.size + v.atMost.size

namespace Frame

/-- The variables that the positions of the frame hold, each counted once. -/
def holding (f : Frame) : Finset VarId :=
  (f.stack ++ f.locals.toList ++ f.returned.toList).toFinset

/-- The number of bounds of the variable with the given number. -/
def boundCount (f : Frame) (id : VarId) : Nat :=
  (f.vars[id]?.map fun v => v.below.size + v.atMost.size).getD 0

/-- Three times the number of variables in the frame, and the number of their bounds. A path that
has not returned yet can take over a returned value, which counts for four. -/
def slack (f : Frame) : Nat :=
  3 * f.holding.card + ∑ id ∈ f.holding, f.boundCount id + if f.returned = none then 4 else 0

/-- What the frame can still forget about the variable with the given number. -/
def knowledgeOf (f : Frame) (id : VarId) : Nat :=
  (f.vars[id]?.map Variable.knowledge).getD 0

/-- What the frame can still forget about the variables that it holds and the value returned. -/
def knowledge (f : Frame) : Nat :=
  ∑ id ∈ f.holding, f.knowledgeOf id + if f.returned = none then 4 else 0

private theorem mem_holding {f : Frame} {id : VarId} : id ∈ f.holding ↔ f.Held id := by
  simp only [holding, Held, List.mem_toFinset, List.mem_append, Array.mem_toList_iff,
    Option.mem_toList, or_assoc]

/-- What is known of a variable is at most its sign and its bounds. -/
private theorem knowledgeOf_le (f : Frame) (id : VarId) :
    f.knowledgeOf id ≤ 3 + f.boundCount id := by
  unfold knowledgeOf boundCount
  cases f.vars[id]? with
  | none => exact Nat.zero_le _
  | some v =>
      simp only [Option.map_some, Option.getD_some, Variable.knowledge]
      omega

/-- What is known about the variables is part of the slack. -/
theorem knowledge_le_slack (f : Frame) : f.knowledge ≤ f.slack := by
  unfold knowledge slack
  apply Nat.add_le_add_right
  calc ∑ id ∈ f.holding, f.knowledgeOf id
      ≤ ∑ id ∈ f.holding, (3 + f.boundCount id) := Finset.sum_le_sum fun id _ => f.knowledgeOf_le id
    _ = 3 * f.holding.card + ∑ id ∈ f.holding, f.boundCount id := by
        rw [Finset.sum_add_distrib, Finset.sum_const, Nat.nsmul_eq_mul, Nat.mul_comm]

/-! ## Joins of variables -/

variable {f g : Frame}

/-- Two flags count for no more together than one by one. -/
theorem toNat_or_le (a b : Bool) : (a || b).toNat ≤ a.toNat + b.toNat := by
  cases a <;> cases b <;> decide

/-- Weakening a variable to what another one satisfies too uses up knowledge if it changes
anything. -/
theorem knowledge_weaken (f g : Frame) (current incoming : Variable) :
    ({ current with
        sign := current.sign.join incoming.sign
        below := f.commonBounds g current.below incoming.below
        atMost := f.commonBounds g current.atMost incoming.atMost } : Variable).knowledge +
      (!decide (incoming.sign ≤ current.sign) ||
        (f.commonBounds g current.below incoming.below).size != current.below.size ||
        (f.commonBounds g current.atMost incoming.atMost).size != current.atMost.size).toNat ≤
        current.knowledge := by
  have below : (f.commonBounds g current.below incoming.below).size ≤ current.below.size :=
    Std.ExtTreeSet.size_filter_le_size
  have atMost : (f.commonBounds g current.atMost incoming.atMost).size ≤ current.atMost.size :=
    Std.ExtTreeSet.size_filter_le_size
  generalize (f.commonBounds g current.below incoming.below) = kept at below ⊢
  generalize (f.commonBounds g current.atMost incoming.atMost) = kept' at atMost ⊢
  have highest := incoming.sign.rank_le
  by_cases covered : incoming.sign ≤ current.sign
  · simp only [Variable.knowledge, Sign.join, covered, ↓reduceIte, decide_true, Bool.not_true,
      Bool.false_or]
    by_cases same : kept.size = current.below.size ∧ kept'.size = current.atMost.size
    · simp only [same, bne_self_eq_false, Bool.or_self, Bool.toNat_false]
      omega
    · have flag :=
        Bool.toNat_le (kept.size != current.below.size || kept'.size != current.atMost.size)
      omega
  · have higher : current.sign.rank < incoming.sign.rank := Nat.lt_of_not_le covered
    simp only [Variable.knowledge, Sign.join, covered, ↓reduceIte, decide_false,
      Bool.not_false, Bool.true_or, Bool.toNat_true]
    omega

/-- If one summand drops, so does the sum. -/
theorem sum_add_le {ids : Finset VarId} {amount amount' : VarId → Nat} {id : VarId} {drop : Nat}
    (member : id ∈ ids) (same : ∀ other, other ≠ id → amount' other = amount other)
    (less : amount' id + drop ≤ amount id) : ∑ i ∈ ids, amount' i + drop ≤ ∑ i ∈ ids, amount i := by
  have others : ∑ i ∈ ids.erase id, amount' i = ∑ i ∈ ids.erase id, amount i :=
    Finset.sum_congr rfl fun other inside => same other (Finset.ne_of_mem_erase inside)
  rw [← Finset.add_sum_erase ids amount member, ← Finset.add_sum_erase ids amount' member, others]
  omega

/-- Changing a variable changes only what is known of it. -/
private theorem knowledgeOf_insert (f : Frame) (id other : VarId) (v : Variable) :
    ({ f with vars := f.vars.insert id v } : Frame).knowledgeOf other =
      if id = other then v.knowledge else f.knowledgeOf other := by
  unfold knowledgeOf
  simp only [Std.ExtTreeMap.getElem?_insert, Std.LawfulEqCmp.compare_eq_iff_eq]
  split
  · rfl
  · rfl

private theorem holding_joinVariable (f g : Frame) (mine theirs : VarId) :
    (f.joinVariable g mine theirs).1.holding = f.holding := by
  unfold joinVariable
  split <;> rfl

private theorem returned_joinVariable (f g : Frame) (mine theirs : VarId) :
    (f.joinVariable g mine theirs).1.returned = f.returned := by
  unfold joinVariable
  split <;> rfl

/-- Joining a pair loses knowledge if it changes anything. -/
private theorem knowledge_joinVariable {mine : VarId} (held : mine ∈ f.holding) (theirs : VarId) :
    (f.joinVariable g mine theirs).1.knowledge + (f.joinVariable g mine theirs).2.toNat ≤
      f.knowledge := by
  unfold joinVariable
  cases foundMine : f.vars[mine]? with
  | none => exact Nat.le_refl _
  | some current =>
      cases foundTheirs : g.vars[theirs]? with
      | none => exact Nat.le_refl _
      | some incoming =>
          have weakened := knowledge_weaken f g current incoming
          have before : f.knowledgeOf mine = current.knowledge := by
            rw [knowledgeOf, foundMine, Option.map_some, Option.getD_some]
          unfold knowledge
          rw [Nat.add_right_comm]
          apply Nat.add_le_add_right
          refine sum_add_le held (fun other different => ?_) ?_
          · rw [knowledgeOf_insert, if_neg different.symm]
          · rw [knowledgeOf_insert, if_pos rfl, before]
            exact weakened

/-- Joining pairs loses knowledge if it changes anything. -/
private theorem knowledge_joinPairs (pairs : List (VarId × VarId))
    (held : ∀ pair ∈ pairs, pair.1 ∈ f.holding) :
    (f.joinPairs g pairs).1.holding = f.holding ∧ (f.joinPairs g pairs).1.returned = f.returned ∧
      (f.joinPairs g pairs).1.knowledge + (f.joinPairs g pairs).2.toNat ≤ f.knowledge := by
  induction pairs generalizing f with
  | nil => exact ⟨rfl, rfl, Nat.le_refl _⟩
  | cons pair pairs ih =>
      have first := knowledge_joinVariable (g := g) (held pair List.mem_cons_self) pair.2
      have same := holding_joinVariable f g pair.1 pair.2
      obtain ⟨holds, returned, rest⟩ :=
        ih (f := (f.joinVariable g pair.1 pair.2).1) fun other member =>
          same ▸ held other (List.mem_cons_of_mem _ member)
      rw [joinPairs_cons]
      refine ⟨holds.trans same, returned.trans (returned_joinVariable f g pair.1 pair.2), ?_⟩
      have flags := toNat_or_le (f.joinVariable g pair.1 pair.2).2
        ((f.joinVariable g pair.1 pair.2).1.joinPairs g pairs).2
      dsimp only
      omega

/-! ## Returned values -/

/-- A value that is taken over counts for at most three, and the frame that took it over has
returned. -/
theorem knowledge_adopt (fresh : f.returned = none) (v : Variable) :
    ({ (f.alloc v.clearBounds).2 with returned := some f.nextId } : Frame).knowledge +
      1 ≤ f.knowledge := by
  let adopted : Frame := { (f.alloc v.clearBounds).2 with returned := some f.nextId }
  have holds : adopted.holding = insert f.nextId f.holding := by
    ext id
    simp only [adopted, mem_holding, Held, Frame.alloc, Finset.mem_insert, fresh,
      Option.some.injEq, reduceCtorEq, or_false]
    grind
  have value : adopted.knowledgeOf f.nextId ≤ 3 := by
    rw [show adopted.knowledgeOf f.nextId = v.clearBounds.knowledge from
      (knowledgeOf_insert f f.nextId f.nextId v.clearBounds).trans (if_pos rfl)]
    simp only [Variable.knowledge, Variable.clearBounds, Std.ExtTreeSet.size_empty]
    omega
  have others : ∑ id ∈ adopted.holding.erase f.nextId, adopted.knowledgeOf id ≤ ∑ id ∈ f.holding,
      f.knowledgeOf id := by
    rw [holds, Finset.erase_insert_eq_erase]
    calc ∑ id ∈ f.holding.erase f.nextId, adopted.knowledgeOf id
        = ∑ id ∈ f.holding.erase f.nextId, f.knowledgeOf id :=
          Finset.sum_congr rfl fun id inside =>
            (knowledgeOf_insert f f.nextId id v.clearBounds).trans
              (if_neg (Finset.ne_of_mem_erase inside).symm)
      _ ≤ ∑ id ∈ f.holding, f.knowledgeOf id :=
        Finset.sum_le_sum_of_subset (Finset.erase_subset _ _)
  have member : f.nextId ∈ adopted.holding := holds ▸ Finset.mem_insert_self _ _
  have total := Finset.add_sum_erase adopted.holding adopted.knowledgeOf member
  have returned : ¬adopted.returned = none := by simp [adopted]
  change adopted.knowledge + 1 ≤ f.knowledge
  unfold knowledge
  rw [if_pos fresh, if_neg returned, ← total]
  omega

/-- Joining returned values loses knowledge if it changes anything. -/
private theorem knowledge_joinReturned (f g : Frame) :
    (f.joinReturned g).1.knowledge + (f.joinReturned g).2.toNat ≤ f.knowledge := by
  unfold joinReturned
  cases ours : f.returned with
  | none =>
      cases theirs : g.returned with
      | none => exact Nat.le_refl _
      | some id =>
          dsimp only
          cases g.vars[id]? with
          | none => exact Nat.le_refl _
          | some v => exact knowledge_adopt ours v
  | some mine =>
      cases theirs : g.returned with
      | none => exact Nat.le_refl _
      | some id => exact knowledge_joinVariable (mem_holding.mpr (.inr (.inr ours))) id

/-! ## Joins of frames -/

/-- Collecting adds no knowledge. -/
private theorem knowledge_collect (f : Frame) : f.collect.knowledge ≤ f.knowledge := by
  have trimmed (id : VarId) : f.collect.knowledgeOf id ≤ f.knowledgeOf id := by
    unfold knowledgeOf
    cases found : f.collect.vars[id]? with
    | none => exact Nat.zero_le _
    | some w =>
        simp only [collect, Std.ExtTreeMap.getElem?_map, Option.map_eq_some_iff] at found
        obtain ⟨v, found, rfl⟩ := found
        rw [Std.ExtTreeMap.getElem?_filter, Option.pfilter_eq_some_iff] at found
        obtain ⟨present, -⟩ := found
        have below : (v.below.filter f.live.contains).size ≤ v.below.size :=
          Std.ExtTreeSet.size_filter_le_size
        have atMost : (v.atMost.filter f.live.contains).size ≤ v.atMost.size :=
          Std.ExtTreeSet.size_filter_le_size
        rw [present, Option.map_some, Option.getD_some, Option.map_some, Option.getD_some]
        simp only [Variable.knowledge]
        omega
  unfold knowledge
  apply Nat.add_le_add_right
  exact Finset.sum_le_sum fun id _ => trimmed id

/-- What stands in a common position stands in a position. -/
theorem held_of_commonPositions {pair : VarId × VarId} (member : pair ∈ f.commonPositions g) :
    f.Held pair.1 := by
  rcases List.mem_append.mp member with onStack | inSlot
  · exact .inl (List.mem_reverse.mp (List.of_mem_zip onStack).1)
  · exact .inr (.inl (Array.mem_toList_iff.mp (List.of_mem_zip inSlot).1))

/-- A join never adds knowledge, and uses up some if it changes the frame. -/
theorem knowledge_join (f g : Frame) :
    (f.join g).1.knowledge + (f.join g).2.toNat ≤ f.knowledge := by
  let start : Frame := { f.drawAfter g with pc := max f.pc g.pc }
  obtain ⟨-, -, pairs⟩ :=
    knowledge_joinPairs (f := start) (g := g) (start.commonPositions g) fun pair member =>
      mem_holding.mpr (held_of_commonPositions member)
  have returned := knowledge_joinReturned (start.joinPairs g (start.commonPositions g)).1 g
  have collected :=
    knowledge_collect ((start.joinPairs g (start.commonPositions g)).1.joinReturned g).1
  have flags := toNat_or_le (start.joinPairs g (start.commonPositions g)).2
    ((start.joinPairs g (start.commonPositions g)).1.joinReturned g).2
  calc (f.join g).1.knowledge + (f.join g).2.toNat
      ≤ start.knowledge := by
        change ((start.joinPairs g (start.commonPositions g)).1.joinReturned
          g).1.collect.knowledge + ((start.joinPairs g (start.commonPositions g)).2 ||
            ((start.joinPairs g (start.commonPositions g)).1.joinReturned g).2).toNat ≤
            start.knowledge
        omega
    _ = f.knowledge := rfl

/-! ## Joins one after the other -/

/-- The frame after the first `n` of a sequence of frames have been joined into it. -/
def joinFirst (f : Frame) (others : Nat → Frame) : Nat → Frame
  | 0 => f
  | n + 1 => ((f.joinFirst others n).join (others n)).1

/-- The positions in a sequence of frames at which a join changes the frame. -/
def changes (f : Frame) (others : Nat → Frame) : Set Nat :=
  { n | ((f.joinFirst others n).join (others n)).2 = true }

/-- Each join that changes something loses knowledge. -/
private theorem knowledge_joinFirst (f : Frame) (others : Nat → Frame) (n : Nat) :
    (f.joinFirst others n).knowledge +
      {i ∈ Finset.range n | ((f.joinFirst others i).join (others i)).2 = true}.card ≤
        f.knowledge := by
  induction n with
  | zero => exact Nat.le_refl _
  | succ n ih =>
      have step := knowledge_join (f.joinFirst others n) (others n)
      rw [Finset.range_add_one, Finset.filter_insert]
      change ((f.joinFirst others n).join (others n)).1.knowledge + _ ≤ _
      split
      case isTrue changed =>
        rw [Finset.card_insert_of_notMem (by simp)]
        rw [changed, Bool.toNat_true] at step
        omega
      case isFalse => omega

/-- However many frames are joined into a frame, at most `slack` of the joins change it. -/
theorem encard_changes_le (f : Frame) (others : Nat → Frame) :
    (f.changes others).encard ≤ f.slack := by
  by_contra more
  have enough : ((f.slack + 1 : Nat) : ℕ∞) ≤ (f.changes others).encard := by
    rw [Nat.cast_add, Nat.cast_one]
    exact Order.add_one_le_of_lt (not_le.mp more)
  obtain ⟨part, inside, size⟩ := Set.exists_subset_encard_eq enough
  have finite : part.Finite := Set.finite_of_encard_eq_coe size
  -- A finite part lies before some position, and up to there the knowledge has been counted.
  let bound := finite.toFinset.sup id + 1
  have before :
      finite.toFinset ⊆
      {i ∈ Finset.range bound | ((f.joinFirst others i).join (others i)).2 = true} := by
    intro i member
    have early : i ≤ finite.toFinset.sup id := Finset.le_sup (f := id) member
    exact Finset.mem_filter.mpr
      ⟨Finset.mem_range.mpr (Nat.lt_succ_of_le early), inside (finite.mem_toFinset.mp member)⟩
  have count := Finset.card_le_card before
  rw [finite.encard_eq_coe_toFinset_card, Nat.cast_inj] at size
  have total := knowledge_joinFirst f others bound
  have limit := f.knowledge_le_slack
  omega

end Frame

end ArrayBounds
