import ArrayBounds.Proofs.Domain.Slack

/-! # What the flag of a join says

A join tells whether the receiving frame lost anything. The fixpoint iteration stops on this answer
alone, so it has to be exact: if the answer is no, the frame is what it was, less what no position
holds any more (`ArrayBounds.Frame.Tidied`); if it is yes, the frame says less about one of its
variables, or has taken over a returned value (`ArrayBounds.Frame.Weakened`). One join is enough to
make the next one of the same frame change nothing (`ArrayBounds.Frame.join_exact`).

A pair of variables changes nothing if and only if the receiving one is shared by the other one
already (`ArrayBounds.Frame.Shares`). All answers are read off that.
-/

namespace ArrayBounds

namespace Variable

variable {v w : Variable}

/-- The variable `w` says less than `v`: its sign has gone up, or a bound is missing. -/
def Loses (v w : Variable) : Prop :=
  v.sign < w.sign ∨ (∃ target ∈ v.below, target ∉ w.below) ∨ ∃ target ∈ v.atMost, target ∉ w.atMost

/-- The variable `w` is `v` with those bounds only that `kept` holds of. -/
structure Restricts (v w : Variable) (kept : VarId → Prop) : Prop where
  below : ∀ target, target ∈ w.below ↔ target ∈ v.below ∧ kept target
  atMost : ∀ target, target ∈ w.atMost ↔ target ∈ v.atMost ∧ kept target
  rest : w = { v with below := w.below, atMost := w.atMost }

namespace Restricts

variable {kept : VarId → Prop} (restricts : v.Restricts w kept)
include restricts

/-- Dropping bounds leaves the sign alone. -/
theorem sign_eq : w.sign = v.sign := by rw [restricts.rest]

private theorem slot_eq : w.slot = v.slot := by rw [restricts.rest]

private theorem weaker : w.Weaker v :=
  ⟨Nat.le_of_eq (congrArg Sign.rank restricts.sign_eq).symm,
    fun target member => ((restricts.below target).mp member).1,
    fun target member => ((restricts.atMost target).mp member).1⟩

private theorem kept_of_isBound {target : VarId} (bound : w.IsBound target) : kept target :=
  bound.elim (fun member => ((restricts.below target).mp member).2) fun member =>
    ((restricts.atMost target).mp member).2

/-- The bounds that are kept determine the variable. -/
theorem unique {w' : Variable} (other : v.Restricts w' kept) : w' = w := by
  have below : w'.below = w.below := Std.ExtTreeSet.ext_mem fun target =>
    (other.below target).trans (restricts.below target).symm
  have atMost : w'.atMost = w.atMost := Std.ExtTreeSet.ext_mem fun target =>
    (other.atMost target).trans (restricts.atMost target).symm
  rw [other.rest, restricts.rest, below, atMost]

end Restricts

/-- Only which bounds are kept matters. -/
private theorem Restricts.congr {kept kept' : VarId → Prop} (restricts : v.Restricts w kept)
    (same : ∀ target, v.IsBound target → (kept target ↔ kept' target)) : v.Restricts w kept' :=
  ⟨fun target =>
    (restricts.below target).trans (and_congr_right fun member => same target (.inl member)),
      fun target => (restricts.atMost target).trans
      (and_congr_right fun member => same target (.inr member)), restricts.rest⟩

/-- Nothing is dropped where all bounds are kept. -/
theorem Restricts.self {kept : VarId → Prop} (all : ∀ target, v.IsBound target → kept target) :
    v.Restricts v kept :=
  ⟨fun target => ⟨fun member => ⟨member, all target (.inl member)⟩, And.left⟩,
    fun target => ⟨fun member => ⟨member, all target (.inr member)⟩, And.left⟩, rfl⟩

end Variable

namespace Frame

variable {s o f g : Frame} {id mine theirs : VarId} {v w : Variable} {pairs : List (VarId × VarId)}

/-! ## Dropping what is not held -/

/-- What is left after dropping: the variables in some position, with the bounds in some
position. -/
theorem vars_collect_iff : f.collect.vars[id]? = some w ↔ f.Held id ∧ ∃ v, f.vars[id]? = some v ∧
      v.Restricts w f.Held := by
  have kept (bounds : Bounds) (target : VarId) :
      target ∈ bounds.filter f.live.contains ↔ target ∈ bounds ∧ f.Held target := by
    simp only [Std.ExtTreeSet.mem_filter, Std.ExtTreeSet.get_eq, exists_prop,
      Std.ExtTreeSet.contains_iff_mem, mem_live]
  have trimmed (v : Variable) : v.Restricts
      { v with below := v.below.filter f.live.contains, atMost := v.atMost.filter f.live.contains }
      f.Held :=
    ⟨kept v.below, kept v.atMost, rfl⟩
  simp only [collect, Std.ExtTreeMap.getElem?_map, Option.map_eq_some_iff,
    Std.ExtTreeMap.getElem?_filter, Option.pfilter_eq_some_iff, Std.ExtTreeMap.getKey_eq,
    Std.ExtTreeSet.contains_iff_mem, mem_live]
  constructor
  · rintro ⟨v, ⟨found, held⟩, rfl⟩
    exact ⟨held, v, found, trimmed v⟩
  · rintro ⟨held, v, found, restricts⟩
    exact ⟨v, ⟨found, held⟩, restricts.unique (trimmed v)⟩

/-- A variable that some position holds keeps those of its bounds that some position holds. -/
theorem exists_collect (held : f.Held id) (found : f.vars[id]? = some v) :
    ∃ w, f.collect.vars[id]? = some w ∧ v.Restricts w f.Held := by
  obtain ⟨w, kept, -⟩ := collect_of_held held found
  obtain ⟨-, v', there, restricts⟩ := vars_collect_iff.mp kept
  obtain rfl := Option.some.inj (found.symm.trans there)
  exact ⟨w, kept, restricts⟩

/-- A variable that some position holds keeps its slot. -/
theorem slotOf_collect (held : f.Held id) : f.collect.slotOf id = f.slotOf id := by
  unfold slotOf
  cases found : f.vars[id]? with
  | none =>
      cases kept : f.collect.vars[id]? with
      | none => rfl
      | some w =>
          obtain ⟨-, v, there, -⟩ := vars_collect_iff.mp kept
          cases found.symm.trans there
  | some v =>
      obtain ⟨w, kept, restricts⟩ := exists_collect held found
      rw [kept, Option.bind_some, Option.bind_some, restricts.slot_eq]

/-- Nothing is dropped from a frame that holds all its variables and their bounds. -/
theorem collect_eq_self (held : ∀ (id : VarId) v, f.vars[id]? = some v → f.Held id ∧
      ∀ target, v.IsBound target → f.Held target) : f.collect = f := by
  have same : f.collect.vars = f.vars := by
    refine Std.ExtTreeMap.ext_getElem? fun id => Option.ext fun w => ?_
    rw [vars_collect_iff]
    constructor
    · rintro ⟨-, v, found, restricts⟩
      rwa [← restricts.unique (.self (held id v found).2)]
    · intro found
      exact ⟨(held id w found).1, w, found, .self (held id w found).2⟩
  calc f.collect = { f with vars := f.collect.vars } := rfl
    _ = f := by rw [same]

/-! ## Pairs that change nothing -/

/-- What is known of the first variable of the pair is known of the second one. -/
def Settled (s o : Frame) (pair : VarId × VarId) : Prop :=
  ∀ v v', s.vars[pair.1]? = some v → o.vars[pair.2]? = some v' → s.Shares o v v'

private theorem commonBounds_eq_self {mine theirs : Bounds}
    (shared : ∀ target ∈ mine, f.sharesBound g theirs target = true) :
    f.commonBounds g mine theirs = mine :=
  Std.ExtTreeSet.ext_mem fun target =>
    mem_commonBounds.trans ⟨And.left, fun member => ⟨member, shared target member⟩⟩

/-- A settled pair is left as it is. -/
private theorem joinVariable_of_settled (settled : f.Settled g (mine, theirs)) :
    f.joinVariable g mine theirs = (f, false) := by
  unfold joinVariable
  cases foundMine : f.vars[mine]? with
  | none => rfl
  | some current =>
      cases foundTheirs : g.vars[theirs]? with
      | none => rfl
      | some incoming =>
          have shares := settled current incoming foundMine foundTheirs
          have unchanged : f.vars.insert mine current = f.vars := by
            refine Std.ExtTreeMap.ext_getElem? fun id => ?_
            rw [Std.ExtTreeMap.getElem?_insert]
            split
            case isTrue same => rw [← Std.LawfulEqCmp.compare_eq_iff_eq.mp same, foundMine]
            case isFalse => rfl
          simp only [commonBounds_eq_self shares.below, commonBounds_eq_self shares.atMost,
            Sign.join, shares.sign, ↓reduceIte, decide_true, bne_self_eq_false, Bool.not_true,
            Bool.or_self, unchanged]

/-- A pair that is left as it is was settled. -/
private theorem settled_of_joinVariable (unchanged : (f.joinVariable g mine theirs).2 = false) :
    f.Settled g (mine, theirs) := by
  intro v v' foundMine foundTheirs
  unfold joinVariable at unchanged
  rw [foundMine, foundTheirs] at unchanged
  simp only [Bool.or_eq_false_iff, Bool.not_eq_false', decide_eq_true_eq, bne_eq_false_iff_eq]
    at unchanged
  obtain ⟨⟨sign, below⟩, atMost⟩ := unchanged
  have shared {mine theirs : Bounds} (size : (f.commonBounds g mine theirs).size = mine.size)
      (target : VarId)
      (member : target ∈ mine) : f.sharesBound g theirs target = true := by
    rw [commonBounds, Std.ExtTreeSet.size_filter_eq_size_iff] at size
    simpa only [Std.ExtTreeSet.get_eq] using size target member
  exact ⟨sign, shared below, shared atMost⟩

/-- Settled pairs are left as they are. -/
private theorem joinPairs_of_settled (settled : ∀ pair ∈ pairs, f.Settled g pair) :
    f.joinPairs g pairs = (f, false) := by
  induction pairs with
  | nil => rfl
  | cons pair pairs ih =>
      rw [joinPairs_cons, joinVariable_of_settled (settled pair List.mem_cons_self),
        ih fun other member => settled other (List.mem_cons_of_mem _ member), Bool.or_self]

/-- Pairs that are left as they are were settled. -/
private theorem settled_of_joinPairs (unchanged : (f.joinPairs g pairs).2 = false) :
    ∀ pair ∈ pairs, f.Settled g pair := by
  induction pairs with
  | nil => exact fun _ member => absurd member List.not_mem_nil
  | cons pair pairs ih =>
      rw [joinPairs_cons, Bool.or_eq_false_iff] at unchanged
      have first := settled_of_joinVariable unchanged.1
      rw [joinVariable_of_settled first] at unchanged
      intro other member
      obtain rfl | member := List.mem_cons.mp member
      · exact first
      · exact ih unchanged.2 other member

/-! ## The two ways a join goes -/

/-- The receiving frame before its variables are joined. -/
def meeting (s o : Frame) : Frame :=
  { s.drawAfter o with pc := max s.pc o.pc }

/-- The receiving frame and its flag after all pairs are joined. -/
def merged (s o : Frame) : Frame × Bool :=
  (s.meeting o).joinPairs o (s.pairs o)

/-- The frame that takes over a returned value. -/
def adopt (f : Frame) (v : Variable) : Frame :=
  { (f.alloc v.clearBounds).2 with returned := some f.nextId }

/-- No returned value is taken over. -/
def Known (s o : Frame) : Prop :=
  s.returned.isSome ∨ o.returnedValue? = none

/-- The frame in which all pairs have been joined. -/
theorem joined_merged (s o : Frame) : s.Joined o (s.pairs o) (s.merged o).1 := by
  have joined := (joined_start s o).joinPairs (s.pairs o)
  rwa [List.nil_append] at joined

/-- Pairs are joined one after the other. -/
private theorem joinPairs_append (f g : Frame) (pairs more : List (VarId × VarId)) :
    f.joinPairs g (pairs ++ more) =
      (((f.joinPairs g pairs).1.joinPairs g more).1,
        (f.joinPairs g pairs).2 || ((f.joinPairs g pairs).1.joinPairs g more).2) := by
  induction pairs generalizing f with
  | nil => rw [List.nil_append]; rfl
  | cons pair pairs ih => rw [List.cons_append, joinPairs_cons, ih, joinPairs_cons, Bool.or_assoc]

/-- If no returned value is taken over, a join drops what no position holds after all pairs are
joined. -/
theorem join_of_known (known : s.Known o) :
    s.join o = ((s.merged o).1.collect, (s.merged o).2) := by
  have returned : ((s.meeting o).joinPairs o (s.commonPositions o)).1.returned = s.returned :=
    ((joined_start s o).joinPairs (s.commonPositions o)).returned_eq
  have whole :
      s.join o = ((((s.meeting o).joinPairs o (s.commonPositions o)).1.joinReturned o).1.collect,
      ((s.meeting o).joinPairs o (s.commonPositions o)).2 ||
        (((s.meeting o).joinPairs o (s.commonPositions o)).1.joinReturned o).2) := rfl
  rw [whole, merged, pairs, joinPairs_append]
  unfold joinReturned
  rw [returned]
  cases ours : s.returned with
  | none =>
      have nothing : o.returnedValue? = none :=
        known.resolve_left (by rw [ours]; exact Bool.false_ne_true)
      rw [Option.toList_none, List.zip_nil_left]
      cases theirs : o.returned with
      | none => rfl
      | some id =>
          rw [returnedValue?, theirs, Option.bind_some] at nothing
          dsimp only
          rw [nothing]
          rfl
  | some mine =>
      cases theirs : o.returned with
      | none => rfl
      | some id =>
          rw [Option.toList_some, Option.toList_some, List.zip_cons_cons, List.zip_nil_left,
            joinPairs_cons]
          simp only [joinPairs, List.foldl_nil, Bool.or_false]

/-- A join that takes over a returned value has always changed the frame. -/
theorem join_of_adopts (fresh : s.returned = none) (value : o.returnedValue? = some v) :
    s.join o = (((s.merged o).1.adopt v).collect, true) := by
  have same : s.pairs o = s.commonPositions o := by
    rw [pairs, fresh, Option.toList_none, List.zip_nil_left, List.append_nil]
  have returned : ((s.meeting o).joinPairs o (s.commonPositions o)).1.returned = s.returned :=
    ((joined_start s o).joinPairs (s.commonPositions o)).returned_eq
  have whole :
      s.join o = ((((s.meeting o).joinPairs o (s.commonPositions o)).1.joinReturned o).1.collect,
      ((s.meeting o).joinPairs o (s.commonPositions o)).2 ||
        (((s.meeting o).joinPairs o (s.commonPositions o)).1.joinReturned o).2) := rfl
  obtain ⟨id, theirs, found⟩ := Option.bind_eq_some_iff.mp value
  rw [whole, merged, same]
  unfold joinReturned
  rw [returned, fresh, theirs]
  dsimp only
  rw [found, Bool.or_true]
  rfl

/-- Either there is no returned value to be taken over, or there is one. -/
theorem known_or_adopts (s o : Frame) :
    s.Known o ∨ s.returned = none ∧ ∃ v, o.returnedValue? = some v := by
  unfold Known
  cases s.returned with
  | some id => exact .inl (.inl rfl)
  | none =>
      cases o.returnedValue? with
      | none => exact .inl (.inr rfl)
      | some v => exact .inr ⟨rfl, v, rfl⟩

/-- Whether a variable is shared depends on the slots of its bounds only. -/
theorem Shares.transport (shares : s.Shares o w v)
    (slots : ∀ target, w.IsBound target → f.slotOf target = s.slotOf target) : f.Shares o w v := by
  have same (theirs : Bounds) (target : VarId) (bound : w.IsBound target) :
      f.sharesBound o theirs target = s.sharesBound o theirs target := by
    simp only [sharesBound, slots target bound]
  exact ⟨shares.sign,
    fun target member => (same _ target (.inl member)).trans (shares.below target member),
    fun target member => (same _ target (.inr member)).trans (shares.atMost target member)⟩

private theorem settled_meeting {pair : VarId × VarId} :
    (s.meeting o).Settled o pair ↔ s.Settled o pair :=
  ⟨fun settled v v' here there => (settled v v' here there).transport fun _ _ => rfl,
    fun settled v v' here there => (settled v v' here there).transport fun _ _ => rfl⟩

/-- A join changes nothing exactly if no returned value is taken over and no pair loses anything. -/
theorem join_unchanged_iff :
    (s.join o).2 = false ↔ s.Known o ∧ ∀ pair ∈ s.pairs o, s.Settled o pair := by
  obtain known | ⟨fresh, v, value⟩ := known_or_adopts s o
  · rw [join_of_known known]
    exact ⟨fun unchanged =>
      ⟨known, fun pair member => settled_meeting.mp (settled_of_joinPairs unchanged pair member)⟩,
        fun settled => congrArg Prod.snd
          (joinPairs_of_settled fun pair member => settled_meeting.mpr (settled.2 pair member))⟩
  · rw [join_of_adopts fresh value]
    refine ⟨fun impossible => absurd impossible.symm Bool.false_ne_true, fun settled => ?_⟩
    rw [Known, fresh, value] at settled
    simp at settled

/-! ## What a join leaves -/

/-- The frame `j` is what is left of `s` after `o` has been joined into it and nothing was lost: a
variable that some position holds is kept, with the bounds that some position holds. -/
structure Tidied (s o j : Frame) : Prop where
  vars : ∀ (id : VarId) w, j.vars[id]? = some w ↔ s.Held id ∧ ∃ v, s.vars[id]? = some v ∧
    v.Restricts w s.Held
  rest : j = { s with vars := j.vars, pc := max s.pc o.pc, nextId := max s.nextId o.nextId }

/-- The frame `j` is what is left of `s` after `o` has been joined into it and something was lost:
the positions are the same, no variable says more than before, and one says less or a returned value
has been taken over. -/
structure Weakened (s o j : Frame) : Prop where
  stack : j.stack = s.stack
  locals : j.locals = s.locals
  control : j.control = s.control.join o.control
  weaker : ∀ (id : VarId) v, s.Held id → s.vars[id]? = some v →
    ∃ w, j.vars[id]? = some w ∧ w.Weaker v
  only : ∀ id ∈ j.vars, s.Held id ∨ s.returned = none ∧ j.returned = some id
  loss : s.returned = none ∧ j.returned.isSome ∨
    ∃ (id : VarId) (v w : Variable), s.Held id ∧ s.vars[id]? = some v ∧
      j.vars[id]? = some w ∧ v.Loses w

private theorem held_congr (stack : f.stack = s.stack) (locals : f.locals = s.locals)
    (returned : f.returned = s.returned) : f.Held id ↔ s.Held id := by
  rw [Held, Held, stack, locals, returned]

/-- Joining pairs leaves the positions alone. -/
theorem held_merged : (s.merged o).1.Held id ↔ s.Held id :=
  have joined := joined_merged s o
  held_congr joined.stack_eq joined.locals_eq joined.returned_eq

private theorem le_nextId_merged (s o : Frame) : s.nextId ≤ (s.merged o).1.nextId :=
  (joined_merged s o).nextId_eq ▸ Nat.le_max_left _ _

/-- A returned value that is taken over gets a new number and loses its bounds. -/
theorem vars_adopt (f : Frame) (v : Variable) (id : VarId) :
    (f.adopt v).vars[id]? = if f.nextId = id then some v.clearBounds else f.vars[id]? :=
  vars_alloc f v.clearBounds id

/-- Taking over a returned value adds its new number to those that are held. -/
theorem held_adopt (fresh : f.returned = none) :
    (f.adopt v).Held id ↔ f.Held id ∨ f.nextId = id := by
  simp only [Held, fresh, reduceCtorEq, or_false, or_assoc, ← Option.some_inj (a := f.nextId)]
  rfl

private theorem Drawn.bounds_merged (drawn : s.Drawn) (found : (s.merged o).1.vars[id]? = some v)
    {target : VarId} (bound : v.IsBound target) : target < s.nextId := by
  obtain ⟨u, here, weaker⟩ := (joined_merged s o).weaker id v found
  exact drawn.bounds id u here target (bound.imp (weaker.below target) (weaker.atMost target))

/-- What a join leaves of a variable in some position. -/
theorem Drawn.vars_join (drawn : s.Drawn) (held : s.Held id) :
    (s.join o).1.vars[id]? = some w ↔ ∃ u, (s.merged o).1.vars[id]? = some u ∧
      u.Restricts w s.Held := by
  obtain known | ⟨fresh, v, value⟩ := known_or_adopts s o
  · have same : (s.merged o).1.Held = s.Held := funext fun id => propext held_merged
    rw [join_of_known known, vars_collect_iff, same]
    exact and_iff_right held
  · have fresh' : (s.merged o).1.returned = none := (joined_merged s o).returned_eq.trans fresh
    have older {id : VarId} (drawn : id < s.nextId) : (s.merged o).1.nextId ≠ id :=
      Nat.ne_of_gt (Nat.lt_of_lt_of_le drawn (le_nextId_merged s o))
    rw [join_of_adopts fresh value, vars_collect_iff, held_adopt fresh', held_merged, vars_adopt,
      if_neg (older (drawn.held held))]
    simp only [held, true_or, true_and]
    refine exists_congr fun u => and_congr_right fun found => ?_
    have same (target : VarId) (bound : u.IsBound target) : ((s.merged o).1.adopt v).Held target ↔
        s.Held target := by
      rw [held_adopt fresh', held_merged, or_iff_left (older (drawn.bounds_merged found bound))]
    exact ⟨fun restricts => restricts.congr same,
      fun restricts => restricts.congr fun target bound => (same target bound).symm⟩

/-- A variable that some position holds is kept by a join, with the bounds that are left and
held. -/
theorem Drawn.exists_join (drawn : s.Drawn) (held : s.Held id) (found : s.vars[id]? = some v) :
    ∃ u w, (s.merged o).1.vars[id]? = some u ∧ (s.join o).1.vars[id]? = some w ∧ u.Weaker v ∧
      u.Restricts w s.Held := by
  have joined := joined_merged s o
  obtain ⟨u, there⟩ := Option.isSome_iff_exists.mp
    (Std.ExtTreeMap.mem_iff_isSome_getElem?.mp
      (joined.present id (Std.ExtTreeMap.mem_iff_isSome_getElem?.mpr (found ▸ rfl))))
  obtain ⟨v', here, weaker⟩ := joined.weaker id u there
  obtain rfl := Option.some.inj (found.symm.trans here)
  obtain ⟨w, -, restricts⟩ := exists_collect (held_merged.mpr held) there
  have restricts : u.Restricts w s.Held := restricts.congr fun _ _ => held_merged
  exact ⟨u, w, there, (drawn.vars_join held).mpr ⟨u, there, restricts⟩, weaker, restricts⟩

/-- A join leaves every value in its slot. -/
private theorem Drawn.slotOf_join (drawn : s.Drawn) (held : s.Held id) :
    (s.join o).1.slotOf id = s.slotOf id := by
  rw [← (joined_merged s o).slots id]
  obtain known | ⟨fresh, v, value⟩ := known_or_adopts s o
  · rw [join_of_known known, slotOf_collect (held_merged.mpr held)]
  · have fresh' : (s.merged o).1.returned = none := (joined_merged s o).returned_eq.trans fresh
    rw [join_of_adopts fresh value,
      slotOf_collect ((held_adopt fresh').mpr (.inl (held_merged.mpr held))), slotOf, vars_adopt,
      if_neg (Nat.ne_of_gt (Nat.lt_of_lt_of_le (drawn.held held) (le_nextId_merged s o))), slotOf]

/-- The receiving side of each pair is held. -/
theorem held_of_pairs (member : (mine, theirs) ∈ s.pairs o) : s.Held mine := by
  obtain position | ⟨returned, -⟩ := mem_pairs.mp member
  · exact held_of_commonPositions position
  · exact .inr (.inr returned)

/-- A join changes the returned value only by taking one over. -/
theorem returned_join_of_known (known : s.Known o) : (s.join o).1.returned = s.returned := by
  rw [join_of_known known]
  exact (joined_merged s o).returned_eq

/-- A join holds nothing new but a returned value that it takes over. -/
theorem held_join (held : (s.join o).1.Held id) :
    s.Held id ∨ s.returned = none ∧ (s.join o).1.returned = some id := by
  obtain onStack | inSlot | returned := held
  · exact .inl (.inl (join_stack s o ▸ onStack))
  · exact .inl (.inr (.inl (join_locals s o ▸ inSlot)))
  · obtain known | ⟨fresh, -⟩ := known_or_adopts s o
    · exact .inl (.inr (.inr (returned_join_of_known known ▸ returned)))
    · exact .inr ⟨fresh, returned⟩

/-! ## Joins that change nothing -/

/-- A join that changes nothing only tidies up. -/
private theorem tidied_of_unchanged (unchanged : (s.join o).2 = false) :
    s.Tidied o (s.join o).1 := by
  obtain ⟨known, settled⟩ := join_unchanged_iff.mp unchanged
  have nothing : s.merged o = (s.meeting o, false) :=
    joinPairs_of_settled fun pair member => settled_meeting.mpr (settled pair member)
  rw [join_of_known known, nothing]
  exact ⟨fun id w => vars_collect_iff (f := s.meeting o), rfl⟩

/-- A frame and a fork of it have the same variables in the same positions. -/
theorem join_fork_unchanged (s : Frame) : (s.join s.fork).2 = false := by
  refine join_unchanged_iff.mpr ⟨?_, ?_⟩
  · cases returned : s.returned with
    | none =>
        exact .inr
          (by rw [returnedValue?, show s.fork.returned = none from returned, Option.bind_none])
    | some id => exact .inl (by rw [returned]; rfl)
  · rintro ⟨mine, theirs⟩ member v v' here there
    have diagonal {ids : List VarId} (zipped : (mine, theirs) ∈ ids.zip ids) : mine = theirs := by
      obtain ⟨i, found⟩ := List.mem_iff_getElem?.mp zipped
      obtain ⟨left, right⟩ := List.getElem?_zip_eq_some.mp found
      exact Option.some.inj (left.symm.trans right)
    have same : mine = theirs := by
      obtain position | ⟨left, right⟩ := mem_pairs.mp member
      · obtain onStack | inSlot := List.mem_append.mp position
        · exact diagonal onStack
        · exact diagonal inSlot
      · exact Option.some.inj (left.symm.trans right)
    obtain rfl := same
    obtain rfl := Option.some.inj (here.symm.trans there)
    exact ⟨Nat.le_refl _, fun target member => sharesBound_iff.mpr ⟨target, member, .inl rfl⟩,
      fun target member => sharesBound_iff.mpr ⟨target, member, .inl rfl⟩⟩

/-! ## Joins that lose something -/

/-- A variable that is not shared loses something on its way to one that is. -/
theorem Shares.loses {v' : Variable} (shares : s.Shares o w v') (unsettled : ¬s.Shares o v v') :
    v.Loses w := by
  by_contra kept
  simp only [Variable.Loses, not_or, not_exists, not_and, not_not] at kept
  obtain ⟨sign, below, atMost⟩ := kept
  exact unsettled ⟨Nat.le_trans shares.sign (Nat.le_of_not_lt sign),
    fun target member => shares.below target (below target member),
    fun target member => shares.atMost target (atMost target member)⟩

/-- A join that changes something weakens what is known. -/
private theorem Drawn.weakened_of_changed (drawn : s.Drawn) (changed : (s.join o).2 = true) :
    s.Weakened o (s.join o).1 where
  stack := join_stack s o
  locals := join_locals s o
  control := control_join s o
  weaker id v held found := by
    obtain ⟨u, w, -, after, weaker, restricts⟩ := drawn.exists_join (o := o) held found
    exact ⟨w, after, restricts.weaker.trans weaker⟩
  only id present := by
    obtain ⟨w, found⟩ :=
      Option.isSome_iff_exists.mp (Std.ExtTreeMap.mem_iff_isSome_getElem?.mp present)
    exact held_join (held_of_join found).1
  loss := by
    obtain known | ⟨fresh, v, value⟩ := known_or_adopts s o
    · have some : ¬∀ pair ∈ s.pairs o, s.Settled o pair := fun settled => by
        rw [join_unchanged_iff.mpr ⟨known, settled⟩] at changed
        exact Bool.false_ne_true changed
      simp only [Settled, not_forall] at some
      obtain ⟨⟨mine, theirs⟩, member, v, v', here, there, unsettled⟩ := some
      have held := held_of_pairs member
      obtain ⟨u, w, between, after, -, restricts⟩ := drawn.exists_join (o := o) held here
      have shares := (joined_merged s o).shares mine theirs member u v' between there
      exact .inr ⟨mine, v, w, held, here, after, (shares.weaken restricts.weaker).loses unsettled⟩
    · rw [join_of_adopts fresh value]
      exact .inl ⟨fresh, rfl⟩

/-! ## Joins that are repeated -/

/-- What is left of a pair of variables is shared, also by the names that are left. -/
theorem Drawn.settled_of_pairs (drawn : s.Drawn) (member : (mine, theirs) ∈ s.pairs o) :
    (s.join o).1.Settled o (mine, theirs) := by
  intro w v' after there
  obtain ⟨u, between, restricts⟩ := (drawn.vars_join (held_of_pairs member)).mp after
  have shares := (joined_merged s o).shares mine theirs member u v' between there
  exact (shares.weaken restricts.weaker).transport fun target bound =>
    drawn.slotOf_join (restricts.kept_of_isBound bound)

/-- A returned value that is taken over is shared by the one it comes from. -/
theorem settled_of_adopts (fresh : s.returned = none) (value : o.returnedValue? = some v)
    (mineReturned : (s.join o).1.returned = some mine) (theirsReturned : o.returned = some theirs) :
    (s.join o).1.Settled o (mine, theirs) := by
  intro w v' after there
  rw [returnedValue?, theirsReturned, Option.bind_some] at value
  obtain rfl := Option.some.inj (value.symm.trans there)
  have adopted :=
    join_of_adopts fresh (by rw [returnedValue?, theirsReturned, Option.bind_some, value])
  rw [adopted] at after mineReturned
  obtain rfl := Option.some.inj mineReturned
  obtain ⟨-, u, found, restricts⟩ := vars_collect_iff.mp after
  rw [vars_adopt, if_pos rfl] at found
  obtain rfl := Option.some.inj found
  have unbounded (target : VarId) : ¬w.IsBound target := fun bound =>
    Variable.not_isBound_of_unbounded
      rfl rfl (bound.imp (restricts.weaker.below target) (restricts.weaker.atMost target))
  exact ⟨Nat.le_of_eq (congrArg Sign.rank restricts.sign_eq).symm,
    fun target member => absurd (.inl member) (unbounded target),
    fun target member => absurd (.inr member) (unbounded target)⟩

/-- After a join all pairs are settled. -/
private theorem Drawn.settled_join (drawn : s.Drawn)
    (member : (mine, theirs) ∈ (s.join o).1.pairs o) : (s.join o).1.Settled o (mine, theirs) := by
  have positions : (s.join o).1.commonPositions o = s.commonPositions o := by
    rw [commonPositions, join_stack, join_locals, commonPositions]
  rw [mem_pairs, positions] at member
  obtain position | ⟨mineReturned, theirsReturned⟩ := member
  · exact drawn.settled_of_pairs (mem_pairs.mpr (.inl position))
  · obtain known | ⟨fresh, v, value⟩ := known_or_adopts s o
    · rw [returned_join_of_known known] at mineReturned
      exact drawn.settled_of_pairs (mem_pairs.mpr (.inr ⟨mineReturned, theirsReturned⟩))
    · exact settled_of_adopts fresh value mineReturned theirsReturned

private theorem known_join (s o : Frame) : (s.join o).1.Known o := by
  obtain known | ⟨fresh, v, value⟩ := known_or_adopts s o
  · exact known.imp_left fun returned => by rw [returned_join_of_known known, returned]
  · exact .inl (by rw [join_of_adopts fresh value]; rfl)

/-- After a join nothing is left to lose to the same frame, however far it has drawn numbers in the
meantime. -/
theorem Drawn.join_again (drawn : s.Drawn) {next : Nat} (drawnSince : next ≤ (s.join o).1.nextId) :
    (s.join o).1.join { o with nextId := next } = ((s.join o).1, false) := by
  let later : Frame := { o with nextId := next }
  have known : (s.join o).1.Known later := known_join s o
  have settled (pair : VarId × VarId) (member : pair ∈ (s.join o).1.pairs later) :
      ((s.join o).1.meeting later).Settled later pair := by
    intro w v' here there
    have shares := drawn.settled_join member w v' here there
    exact ⟨shares.sign, shares.below, shares.atMost⟩
  have same : (s.join o).1.meeting later = (s.join o).1 := by
    have pc : (s.join o).1.pc = max s.pc o.pc := congrArg Control.pc (control_join s o)
    have reached : max (s.join o).1.pc later.pc = (s.join o).1.pc :=
      Nat.max_eq_left (pc ▸ Nat.le_max_right _ _)
    rw [meeting, drawAfter, Nat.max_eq_left drawnSince, reached]
  have nothing : (s.join o).1.merged later = ((s.join o).1, false) := by
    rw [merged, joinPairs_of_settled settled, same]
  rw [join_of_known known, nothing, collect_eq_self fun id w found => held_of_join found]

/-! ## The flag -/

/-- The flag of a join is exact, and a join of the same frame a second time changes nothing. -/
theorem join_exact (s o : Frame) (drawn : s.Drawn) :
    ((s.join o).2 = false → s.Tidied o (s.join o).1) ∧
    ((s.join o).2 = true → s.Weakened o (s.join o).1) ∧
    (∀ next ≤ (s.join o).1.nextId, (s.join o).1.join { o with nextId := next } =
      ((s.join o).1, false)) ∧
    (s.join s.fork).2 = false :=
  ⟨tidied_of_unchanged, drawn.weakened_of_changed, fun _ => drawn.join_again, s.join_fork_unchanged⟩

/-- An index in bounds for an array meets the index that comes after it, which is known to be at
most the length only. The first join takes the bound away, the second one finds nothing to take. -/
theorem join_exact_incremented :
    let s := indexed.fork
    let o := indexed.fork.increment 2 1
    s.Drawn ∧ (s.join o).2 = true ∧ s.Weakened o (s.join o).1 ∧
      ((s.join o).1.local? 2).any (·.below.isEmpty) = true ∧
      (s.join o).1.join o = ((s.join o).1, false) ∧ (s.join s.fork).2 = false ∧
      s.Tidied s.fork (s.join s.fork).1 := by
  intro s o
  obtain ⟨valuation, tracks⟩ := indexed_tracks
  have drawn : s.Drawn := tracks.wellFormed.toDrawn
  have changed : (s.join o).2 = true := by decide +kernel
  obtain ⟨-, weakened, again, fork⟩ := join_exact s o drawn
  obtain ⟨tidied, -⟩ := join_exact s s.fork drawn
  exact ⟨drawn, changed, weakened changed, by decide +kernel, again o.nextId (by decide +kernel),
    fork, tidied fork⟩

end Frame

end ArrayBounds
