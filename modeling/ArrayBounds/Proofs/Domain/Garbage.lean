import ArrayBounds.Proofs.Domain.Exactness
import ArrayBounds.Proofs.Domain.Numbers

/-! # Bounds that name lost variables

A variable that no position holds any more stays in its frame until the next join, and so do the
bounds that name it. In the frame that is joined into another one they are still compared: by
number, and by the slot that the lost variable was last stored to. So the outcome of a join can
depend on whether the frame that comes in has been cleared of them before
(`ArrayBounds.Frame.join_sees_lost_array`).

What is left of each variable after a join is determined by the variables that it is paired with
(`ArrayBounds.Frame.Leaves`). Comparing this for a frame and for the same frame without lost
variables tells exactly when they make a difference (`ArrayBounds.Frame.join_collect`).
-/

namespace ArrayBounds

/-- The two kinds of bounds. -/
def Variable.sides : List (Variable → Bounds) :=
  [Variable.below, Variable.atMost]

private theorem Variable.forall_sides {P : (Variable → Bounds) → Prop} :
    (∀ side ∈ sides, P side) ↔ P Variable.below ∧ P Variable.atMost := by
  simp only [sides, List.forall_mem_cons, List.not_mem_nil, false_implies, implies_true, and_true]

/-- A restriction keeps the same bounds of either kind. -/
private theorem Variable.Restricts.mem_side {v w : Variable} {kept : VarId → Prop}
    (restricts : v.Restricts w kept) {side : Variable → Bounds} (kind : side ∈ sides)
    (target : VarId) : target ∈ side w ↔ target ∈ side v ∧ kept target := by
  have both : ∀ side ∈ sides, (target ∈ side w ↔ target ∈ side v ∧ kept target) := by
    rw [forall_sides]
    exact ⟨restricts.below target, restricts.atMost target⟩
  exact both side kind

/-- Signs are equal if they say the same. -/
theorem Sign.eq_of_le_iff {a b : Sign} (same : ∀ c, a ≤ c ↔ b ≤ c) : a = b := by
  have up : b ≤ a := (same a).mp (Nat.le_refl _)
  have down : a ≤ b := (same b).mpr (Nat.le_refl _)
  revert up down
  cases a <;> cases b <;> decide

/-- The join of two signs is the least sign that covers both. -/
theorem Sign.join_le_iff {a b c : Sign} : a.join b ≤ c ↔ a ≤ c ∧ b ≤ c := by
  cases a <;> cases b <;> cases c <;> decide

namespace Frame

open Variable (sides forall_sides)

variable {s o f g : Frame} {id mine theirs target : VarId} {u v w : Variable}
  {side : Variable → Bounds} {pairs more : List (VarId × VarId)}

/-! ## What is left of a variable -/

/-- The bound `target` is shared by all variables of `o` that the variable `mine` of `s` is paired
with. -/
def Survives (s o : Frame) (pairs : List (VarId × VarId)) (side : Variable → Bounds)
    (mine target : VarId) : Prop :=
  ∀ theirs v, (mine, theirs) ∈ pairs → o.vars[theirs]? = some v →
    s.sharesBound o (side v) target = true

/-- The variable `w` is what the pairs leave of the variable `v` of `s`. -/
structure Leaves (s o : Frame) (pairs : List (VarId × VarId)) (id : VarId) (v w : Variable) :
    Prop where
  sign : ∀ a, w.sign ≤ a ↔ v.sign ≤ a ∧ ∀ theirs v', (id, theirs) ∈ pairs →
    o.vars[theirs]? = some v' → v'.sign ≤ a
  bounds : ∀ side ∈ sides, ∀ target, target ∈ side w ↔ target ∈ side v ∧
    s.Survives o pairs side id target
  rest : w = { v with sign := w.sign, below := w.below, atMost := w.atMost }

private theorem survives_append :
    s.Survives o (pairs ++ more) side id target ↔ s.Survives o pairs side id target ∧
      s.Survives o more side id target := by
  simp only [Survives, List.mem_append, or_imp, forall_and]

/-- Pairs without a variable for the number leave everything as it is. -/
theorem Leaves.of_unpaired
    (unpaired : ∀ theirs v', (id, theirs) ∈ pairs → o.vars[theirs]? ≠ some v') (v : Variable) :
    s.Leaves o pairs id v v :=
  ⟨fun _ =>
    (and_iff_left fun theirs v' member there => absurd there (unpaired theirs v' member)).symm,
      fun _ _ _ =>
        (and_iff_left fun theirs v' member there => absurd there (unpaired theirs v' member)).symm,
          rfl⟩

/-- What is left is restricted by one list of pairs after the other. -/
private theorem Leaves.append (first : s.Leaves o pairs id v u) (second : s.Leaves o more id u w) :
    s.Leaves o (pairs ++ more) id v w where
  sign a := by
    rw [second.sign, first.sign, and_assoc]
    simp only [List.mem_append, or_imp, forall_and]
  bounds side kind target := by
    rw [second.bounds side kind, first.bounds side kind, and_assoc, survives_append]
  rest := by
    conv => lhs; rw [second.rest, first.rest]

private theorem Leaves.of_slots (slots : ∀ id, f.slotOf id = s.slotOf id)
    (leaves : f.Leaves o pairs id v w) : s.Leaves o pairs id v w := by
  refine ⟨leaves.sign, fun side kind target =>
    (leaves.bounds side kind target).trans (and_congr_right fun _ => ?_), leaves.rest⟩
  simp only [Survives, sharesBound, slots]

/-- Joining a variable leaves every value in its slot. -/
private theorem slotOf_joinVariable (f o : Frame) (mine theirs id : VarId) :
    (f.joinVariable o mine theirs).1.slotOf id = f.slotOf id := by
  unfold joinVariable
  cases here : f.vars[mine]? with
  | none => rfl
  | some current =>
      cases o.vars[theirs]? with
      | none => rfl
      | some incoming =>
          simp only [slotOf, Std.ExtTreeMap.getElem?_insert, Std.LawfulEqCmp.compare_eq_iff_eq]
          split
          case isTrue same => rw [← same, here, Option.bind_some, Option.bind_some]
          case isFalse => rfl

/-- A single pair has a single partner. -/
theorem forall_partner {P : Variable → Prop} (there : o.vars[theirs]? = some v) :
    (∀ theirs' v', (mine, theirs') ∈ [(mine, theirs)] → o.vars[theirs']? = some v' → P v') ↔
      P v := by
  constructor
  · intro each
    exact each theirs v (List.mem_singleton.mpr rfl) there
  · intro holds theirs' v' member there'
    rw [List.mem_singleton, Prod.mk.injEq] at member
    rw [member.2, there] at there'
    exact Option.some.inj there' ▸ holds

/-- Joining one pair leaves of every variable what survives that pair. -/
private theorem leaves_joinVariable (mine theirs : VarId) (found : f.vars[id]? = some v) :
    ∃ w, (f.joinVariable o mine theirs).1.vars[id]? = some w ∧
      f.Leaves o [(mine, theirs)] id v w := by
  unfold joinVariable
  cases there : o.vars[theirs]? with
  | none =>
      refine ⟨v, ?_, .of_unpaired ?_ v⟩
      · cases f.vars[mine]? <;> exact found
      · intro theirs' v' member found'
        rw [List.mem_singleton, Prod.mk.injEq] at member
        rw [member.2, there] at found'
        cases found'
  | some v' =>
      by_cases same : mine = id
      · subst same
        refine ⟨{ v with
          sign := v.sign.join v'.sign
          below := f.commonBounds o v.below v'.below
          atMost := f.commonBounds o v.atMost v'.atMost }, ?_, ?_, ?_, rfl⟩
        · simp only [found, Std.ExtTreeMap.getElem?_insert_self]
        · intro a
          rw [Sign.join_le_iff, forall_partner there]
        · simp only [forall_sides, mem_commonBounds, Survives, forall_partner there,
            implies_true, and_self]
      · refine ⟨v, ?_, .of_unpaired ?_ v⟩
        · cases f.vars[mine]? with
          | none => exact found
          | some current =>
              simp only [Std.ExtTreeMap.getElem?_insert, Std.LawfulEqCmp.compare_eq_iff_eq, same,
                ↓reduceIte, found]
        · intro theirs' v' member
          rw [List.mem_singleton, Prod.mk.injEq] at member
          exact absurd member.1.symm same

/-- Joining pairs leaves of every variable what survives all of them. -/
private theorem leaves_joinPairs (pairs : List (VarId × VarId)) (found : f.vars[id]? = some v) :
    ∃ w, (f.joinPairs o pairs).1.vars[id]? = some w ∧ f.Leaves o pairs id v w := by
  induction pairs generalizing f v with
  | nil => exact ⟨v, found, .of_unpaired (fun _ _ member => absurd member List.not_mem_nil) v⟩
  | cons pair pairs ih =>
      obtain ⟨u, between, first⟩ := leaves_joinVariable (o := o) pair.1 pair.2 found
      obtain ⟨w, after, rest⟩ := ih between
      rw [joinPairs_cons]
      exact ⟨w, after, first.append (rest.of_slots (slotOf_joinVariable f o pair.1 pair.2))⟩

/-- What the pairs leave of a variable is determined. -/
theorem leaves_merged (found : s.vars[id]? = some v) (after : (s.merged o).1.vars[id]? = some w) :
    s.Leaves o (s.pairs o) id v w := by
  obtain ⟨w', after', leaves⟩ := leaves_joinPairs (f := s.meeting o) (o := o) (s.pairs o) found
  obtain rfl := Option.some.inj (after.symm.trans after')
  exact Leaves.of_slots (f := s.meeting o) (fun _ => rfl) leaves

/-! ## Frames without lost variables -/

/-- A bound that is shared by what is left of a variable is shared by the variable. -/
theorem sharesBound_of_collect (restricts : v.Restricts w o.Held) (kind : side ∈ sides)
    (shared : s.sharesBound o.collect (side w) target = true) :
    s.sharesBound o (side v) target = true := by
  rcases sharesBound_iff.mp shared with ⟨target', member, identified⟩
  rcases (restricts.mem_side kind target').mp member with ⟨member, held⟩
  apply sharesBound_iff.mpr
  refine ⟨target', member, ?_⟩
  rwa [Identifies, slotOf_collect held] at identified

private theorem held_of_pairs_right (member : (mine, theirs) ∈ s.pairs o) : o.Held theirs := by
  rcases mem_pairs.mp member with position | ⟨-, returned⟩
  · exact held_of_commonPositions_right position
  · exact .inr (.inr returned)

/-- What survives a collected frame survives the frame. -/
private theorem Survives.of_collect (kind : side ∈ sides)
    (survives : s.Survives o.collect (s.pairs o) side mine target) :
    s.Survives o (s.pairs o) side mine target := by
  intro theirs v member there
  rcases exists_collect (held_of_pairs_right member) there with ⟨w, kept, restricts⟩
  exact sharesBound_of_collect restricts kind (survives theirs w member kept)

/-- Signs are not touched by dropping lost variables. -/
theorem Leaves.sign_collect {w' : Variable} (leaves : s.Leaves o (s.pairs o) id v w)
    (leaves' : s.Leaves o.collect (s.pairs o) id v w') : w'.sign = w.sign := by
  apply Sign.eq_of_le_iff
  intro a
  rw [leaves.sign, leaves'.sign]
  apply and_congr_right
  intro _
  constructor
  · intro covers theirs v' member there
    rcases exists_collect (held_of_pairs_right member) there with ⟨u, kept, restricts⟩
    exact restricts.sign_eq ▸ covers theirs u member kept
  · intro covers theirs u member kept
    rcases vars_collect_iff.mp kept with ⟨-, v', there, restricts⟩
    exact restricts.sign_eq ▸ covers theirs v' member there

/-- A value that is taken over is the same with and without lost variables. -/
theorem returnedValue_collect (value : o.returnedValue? = some v) :
    ∃ w, o.collect.returnedValue? = some w ∧ w.clearBounds = v.clearBounds := by
  rcases Option.bind_eq_some_iff.mp value with ⟨id, returned, found⟩
  rcases exists_collect (.inr (.inr returned)) found with ⟨w, kept, restricts⟩
  refine ⟨w, ?_, ?_⟩
  · rw [returnedValue?, show o.collect.returned = o.returned from rfl, returned,
      Option.bind_some, kept]
  · rw [restricts.rest]
    rfl

/-- A collected frame knows the same. -/
private theorem known_collect : s.Known o.collect ↔ s.Known o := by
  apply or_congr_right
  cases value : o.returnedValue? with
  | some v =>
      rcases returnedValue_collect value with ⟨w, kept, -⟩
      simp only [kept, reduceCtorEq]
  | none =>
      simp only [iff_true]
      rw [returnedValue?, Option.bind_eq_none_iff] at value ⊢
      intro id returned
      cases kept : o.collect.vars[id]? with
      | none => rfl
      | some w =>
          rcases vars_collect_iff.mp kept with ⟨-, v, found, -⟩
          exact absurd found (by simp only [value id returned, reduceCtorEq, not_false_eq_true])

private theorem shares_iff : s.Shares o v w ↔
    w.sign ≤ v.sign ∧ ∀ side ∈ sides, ∀ target ∈ side v,
      s.sharesBound o (side w) target = true := by
  rw [forall_sides]
  exact ⟨fun shares => ⟨shares.sign, shares.below, shares.atMost⟩,
    fun shares => ⟨shares.1, shares.2.1, shares.2.2⟩⟩

/-- Dropping lost variables first does not hide a change. -/
theorem changed_collect (changed : (s.join o).2 = true) : (s.join o.collect).2 = true := by
  by_contra unchanged
  rw [Bool.not_eq_true, join_unchanged_iff] at unchanged
  rcases unchanged with ⟨known, settled⟩
  have before : (s.join o).2 = false := by
    rw [join_unchanged_iff]
    refine ⟨known_collect.mp known, ?_⟩
    rintro ⟨mine, theirs⟩ member v v' here there
    rcases exists_collect (held_of_pairs_right member) there with ⟨w, kept, restricts⟩
    rcases shares_iff.mp (settled (mine, theirs) member v w here kept) with ⟨sign, bounds⟩
    apply shares_iff.mpr
    refine ⟨restricts.sign_eq ▸ sign, ?_⟩
    intro side kind target bound
    exact sharesBound_of_collect restricts kind (bounds side kind target bound)
  rw [before] at changed
  exact Bool.false_ne_true changed

/-! ## The difference that lost variables make -/

/-- The frame `g` differs from `f` only in bounds that it does not have. -/
structure Trails (g f : Frame) : Prop where
  vars : ∀ id : VarId,
    Option.Rel (fun w' w => w'.Weaker w ∧ w' = { w with below := w'.below, atMost := w'.atMost })
    g.vars[id]? f.vars[id]?
  rest : g = { f with vars := g.vars }

/-- The bounds that a join leaves of a variable. -/
theorem Drawn.mem_join (drawn : s.Drawn) (held : s.Held id) (found : s.vars[id]? = some v)
    (after : (s.join o).1.vars[id]? = some w) (kind : side ∈ sides) :
    target ∈ side w ↔ target ∈ side v ∧ s.Survives o (s.pairs o) side id target ∧
      s.Held target := by
  rcases (drawn.vars_join held).mp after with ⟨u, between, restricts⟩
  rw [restricts.mem_side kind, (leaves_merged found between).bounds side kind, and_assoc]

/-- Two frames that differ in their variables only, and what is left of them, differ in their
variables only. -/
theorem rest_of_rest (same : g = { f with vars := g.vars }) :
    g.collect = { f.collect with vars := g.collect.vars } ∧
      ∀ v w, (g.adopt w).collect =
        { (f.adopt v).collect with vars := (g.adopt w).collect.vars } := by
  obtain ⟨vars, stack, locals, pc, pendingJump, returned, nextId⟩ := f
  obtain ⟨vars', stack', locals', pc', pendingJump', returned', nextId'⟩ := g
  simp only [mk.injEq, true_and] at same
  obtain ⟨rfl, rfl, rfl, rfl, rfl, rfl⟩ := same
  exact ⟨rfl, fun _ _ => rfl⟩

/-- Apart from the variables, a collected frame gives the same join. -/
private theorem rest_collect (s o : Frame) :
    (s.join o.collect).1 = { (s.join o).1 with vars := (s.join o.collect).1.vars } := by
  have rest :
      (s.merged o.collect).1 = { (s.merged o).1 with vars := (s.merged o.collect).1.vars } := by
    rw [(joined_merged s o).rest]
    exact (joined_merged s o.collect).rest
  rcases known_or_adopts s o with known | ⟨fresh, v, value⟩
  · rw [join_of_known known, join_of_known (known_collect.mpr known)]
    exact (rest_of_rest rest).1
  · rcases returnedValue_collect value with ⟨w, kept, -⟩
    rw [join_of_adopts fresh value, join_of_adopts fresh kept]
    exact (rest_of_rest rest).2 v w

private theorem vars_collect_of_not_held (lost : ¬f.Held id) : f.collect.vars[id]? = none := by
  apply Option.eq_none_iff_forall_ne_some.mpr
  intro w kept
  exact lost (vars_collect_iff.mp kept).1

/-- A value that is taken over has no bounds to lose. -/
theorem vars_collect_adopt (f : Frame) (v : Variable) :
    (f.adopt v).collect.vars[f.nextId]? = some v.clearBounds := by
  have found : (f.adopt v).vars[f.nextId]? = some v.clearBounds := by rw [vars_adopt, if_pos rfl]
  have unbounded (target : VarId) : ¬v.clearBounds.IsBound target :=
    Variable.not_isBound_of_unbounded rfl rfl
  rcases exists_collect (.inr (.inr rfl)) found with ⟨w, kept, restricts⟩
  rw [kept, restricts.unique (.self fun target bound => absurd bound (unbounded target))]

/-- What no position of the receiving frame holds does not depend on lost variables. -/
theorem vars_join_of_not_held (lost : ¬s.Held id) :
    (s.join o.collect).1.vars[id]? = (s.join o).1.vars[id]? := by
  rcases known_or_adopts s o with known | ⟨fresh, v, value⟩
  · rw [join_of_known known, join_of_known (known_collect.mpr known),
      vars_collect_of_not_held (mt held_merged.mp lost),
      vars_collect_of_not_held (mt held_merged.mp lost)]
  · rcases returnedValue_collect value with ⟨w, kept, same⟩
    have next : (s.merged o.collect).1.nextId = (s.merged o).1.nextId :=
      (joined_merged s o.collect).nextId_eq.trans (joined_merged s o).nextId_eq.symm
    rw [join_of_adopts fresh value, join_of_adopts fresh kept]
    by_cases adopted : (s.merged o).1.nextId = id
    · rw [← adopted, vars_collect_adopt, ← next, vars_collect_adopt, same]
    · have away (o' : Frame) (v : Variable) (other : (s.merged o').1.nextId ≠ id) :
          ((s.merged o').1.adopt v).collect.vars[id]? = none := by
        apply vars_collect_of_not_held
        rw [held_adopt ((joined_merged s o').returned_eq.trans fresh), held_merged]
        exact not_or.mpr ⟨lost, other⟩
      rw [away o v adopted, away o.collect w (next ▸ adopted)]

/-- Numbers without a variable in a slot are the same in both joins. -/
private theorem Drawn.vars_join_of_lost (drawn : s.Drawn)
    (lost : ¬(s.Held id ∧ ∃ v, s.vars[id]? = some v)) :
    (s.join o.collect).1.vars[id]? = (s.join o).1.vars[id]? := by
  by_cases held : s.Held id
  · have nothing (o' : Frame) : (s.join o').1.vars[id]? = none := by
      apply Option.eq_none_iff_forall_ne_some.mpr
      intro w after
      rcases (drawn.vars_join held).mp after with ⟨u, between, -⟩
      rcases (joined_merged s o').weaker id u between with ⟨v, found, -⟩
      exact lost ⟨held, v, found⟩
    rw [nothing, nothing]
  · exact vars_join_of_not_held held

/-- A join changes the sign and the bounds of a variable only. -/
private theorem Drawn.rest_join (drawn : s.Drawn) (held : s.Held id) (found : s.vars[id]? = some v)
    (after : (s.join o).1.vars[id]? = some w) :
    w = { v with sign := w.sign, below := w.below, atMost := w.atMost } := by
  rcases (drawn.vars_join held).mp after with ⟨u, between, restricts⟩
  have leaves := leaves_merged found between
  conv => lhs; rw [restricts.rest, leaves.rest]
  rw [restricts.sign_eq]

/-- The join with a collected frame trails that with the frame. -/
private theorem Drawn.trails_collect (drawn : s.Drawn) :
    (s.join o.collect).1.Trails (s.join o).1 := by
  refine ⟨fun id => ?_, rest_collect s o⟩
  by_cases kept : s.Held id ∧ ∃ v, s.vars[id]? = some v
  · rcases kept with ⟨held, v, found⟩
    rcases drawn.exists_join (o := o) held found with ⟨u, w, between, after, -, restricts⟩
    rcases drawn.exists_join (o := o.collect)
      held found with ⟨u', w', between', after', -, restricts'⟩
    have leaves := leaves_merged found between
    have leaves' : s.Leaves o.collect (s.pairs o) id v u' := leaves_merged found between'
    have sign : w'.sign = w.sign := by
      rw [restricts'.sign_eq, restricts.sign_eq, leaves.sign_collect leaves']
    have bounds : ∀ side ∈ sides, ∀ target ∈ side w', target ∈ side w := by
      intro side kind target member
      rw [drawn.mem_join held found after kind]
      rw [drawn.mem_join held found after' kind] at member
      exact ⟨member.1, member.2.1.of_collect kind, member.2.2⟩
    rw [forall_sides] at bounds
    rw [after, after']
    refine .some ⟨⟨Nat.le_of_eq (congrArg Sign.rank sign).symm, bounds.1, bounds.2⟩, ?_⟩
    conv => lhs; rw [drawn.rest_join held found after', sign]
    conv => rhs; rw [drawn.rest_join held found after]
  · rw [drawn.vars_join_of_lost kept]
    cases (s.join o).1.vars[id]? with
    | none => exact .none
    | some w => exact .some ⟨.refl w, rfl⟩

/-- What is left of a variable is the same if the bounds that survive and are held survive without
lost variables. -/
theorem Drawn.vars_join_collect (drawn : s.Drawn) (held : s.Held id) (found : s.vars[id]? = some v)
    (survive : ∀ side ∈ sides, ∀ target ∈ side v, s.Survives o (s.pairs o) side id target →
      s.Survives o.collect (s.pairs o) side id target ∨ ¬s.Held target) :
    (s.join o.collect).1.vars[id]? = (s.join o).1.vars[id]? := by
  rcases drawn.exists_join (o := o) held found with ⟨-, w, -, after, -⟩
  rcases drawn.exists_join (o := o.collect) held found with ⟨-, w', -, after', -⟩
  have bounds : ∀ side ∈ sides, side w' = side w := by
    intro side kind
    apply Std.ExtTreeSet.ext_mem
    intro target
    rw [drawn.mem_join held found after kind, drawn.mem_join held found after' kind]
    apply and_congr_right
    intro bound
    constructor
    · exact fun kept => ⟨kept.1.of_collect kind, kept.2⟩
    · exact fun kept =>
        ⟨(survive side kind target bound kept.1).resolve_right (not_not.mpr kept.2), kept.2⟩
  rw [forall_sides] at bounds
  have related := (drawn.trails_collect (o := o)).vars id
  rw [after, after'] at related ⊢
  cases related with
  | some related => rw [related.2, bounds.1, bounds.2]

/-- If a join changes nothing and what survives survives without lost variables, it changes nothing
without them. -/
theorem unchanged_collect (unchanged : (s.join o).2 = false)
    (survive : ∀ side ∈ sides, ∀ (mine : VarId) v, s.vars[mine]? = some v → ∀ target ∈ side v,
      s.Survives o (s.pairs o) side mine target →
      s.Survives o.collect (s.pairs o) side mine target) : (s.join o.collect).2 = false := by
  rcases join_unchanged_iff.mp unchanged with ⟨known, settled⟩
  apply join_unchanged_iff.mpr
  refine ⟨known_collect.mpr known, ?_⟩
  rintro ⟨mine, theirs⟩ member v w found kept
  rcases vars_collect_iff.mp kept with ⟨-, v', there, restricts⟩
  have shares := settled (mine, theirs) member v v' found there
  apply shares_iff.mpr
  refine ⟨restricts.sign_eq ▸ shares.sign, ?_⟩
  intro side kind target bound
  have lives : s.Survives o (s.pairs o) side mine target := by
    intro theirs' u member' there'
    exact (shares_iff.mp (settled (mine, theirs') member' v u found there')).2 side
      kind target bound
  exact survive side kind mine v found target bound lives theirs w member kept

/-- Bounds that survive survive without lost variables too, or lost variables make a difference. -/
theorem Drawn.join_collect_eq_iff (drawn : s.Drawn) : s.join o.collect = s.join o ↔
    ∀ side ∈ sides, ∀ (mine : VarId) v, s.vars[mine]? = some v → ∀ target ∈ side v,
      s.Survives o (s.pairs o) side mine target →
        s.Survives o.collect (s.pairs o) side mine target ∨ ¬s.Held target ∧
        (s.join o).2 = true := by
  constructor
  · intro same side kind mine v found target bound survives
    by_contra lost
    rw [not_or, not_and, Bool.not_eq_true] at lost
    rcases lost with ⟨fails, quiet⟩
    -- The number is paired, for otherwise every bound survives.
    have held : s.Held mine := by
      by_contra unheld
      exact fails fun theirs v' member => absurd (held_of_pairs member) unheld
    by_cases kept : s.Held target
    · rcases drawn.exists_join (o := o) held found with ⟨-, w, -, after, -⟩
      have after' : (s.join o.collect).1.vars[mine]? = some w := by rw [same, after]
      have member := (drawn.mem_join held found after kind).mpr ⟨bound, survives, kept⟩
      exact fails ((drawn.mem_join held found after' kind).mp member).2.1
    · have unchanged : (s.join o.collect).2 = false := by rw [same, quiet kept]
      rcases join_unchanged_iff.mp unchanged with ⟨-, settled⟩
      apply fails
      intro theirs v' member there
      exact (shares_iff.mp (settled (mine, theirs) member v v' found there)).2 side
        kind target bound
  · intro survive
    have vars : (s.join o.collect).1.vars = (s.join o).1.vars := by
      apply Std.ExtTreeMap.ext_getElem?
      intro id
      by_cases kept : s.Held id ∧ ∃ v, s.vars[id]? = some v
      · rcases kept with ⟨held, v, found⟩
        exact drawn.vars_join_collect held found fun side kind target bound lives =>
          (survive side kind id v found target bound lives).imp_right And.left
      · exact drawn.vars_join_of_lost kept
    have flags : (s.join o.collect).2 = (s.join o).2 := by
      cases changed : (s.join o).2 with
      | true => exact changed_collect changed
      | false =>
          apply unchanged_collect changed
          intro side kind mine v found target bound lives
          apply (survive side kind mine v found target bound lives).resolve_right
          simp only [changed, Bool.false_eq_true, and_false, not_false_eq_true]
    apply Prod.ext _ flags
    rw [rest_collect, vars]

/-- If no bound of a held variable names a lost one, a bound is shared without lost variables
too. -/
theorem Survives.collect (kind : side ∈ sides)
    (whole : ∀ (id : VarId) v, o.Held id → o.vars[id]? = some v → ∀ target, v.IsBound target →
      o.Held target) (survives : s.Survives o (s.pairs o) side mine target) :
    s.Survives o.collect (s.pairs o) side mine target := by
  intro theirs w member kept
  rcases vars_collect_iff.mp kept with ⟨held, v, there, restricts⟩
  have same : w = v := (Variable.Restricts.self (whole theirs v held there)).unique restricts
  rcases sharesBound_iff.mp (survives theirs v member there) with ⟨target', bound, identified⟩
  apply sharesBound_iff.mpr
  rw [same]
  refine ⟨target', bound, ?_⟩
  have named : v.IsBound target' := by
    have both : ∀ side ∈ sides, target' ∈ side v → v.IsBound target' :=
      forall_sides.mpr ⟨.inl, .inr⟩
    exact both side kind bound
  rwa [Identifies, slotOf_collect (whole theirs v held there target' named)]

/-- The numbers in all positions. -/
def positions (f : Frame) : List VarId :=
  f.stack ++ f.locals.toList ++ f.returned.toList

private theorem mem_positions : id ∈ f.positions ↔ f.Held id := by
  simp only [positions, Held, List.mem_append, Array.mem_toList_iff, Option.mem_toList, or_assoc]

/-- Lost variables of the frame that is joined make a difference exactly if a bound survives because
of them alone, and what is left without them is never more. They make none if no variable in a
position is bounded by a lost one. -/
theorem join_collect (s o : Frame) (drawn : s.Drawn) :
    (s.join o.collect = s.join o ↔
      ∀ side ∈ sides, ∀ (mine : VarId) v, s.vars[mine]? = some v → ∀ target ∈ side v,
        s.Survives o (s.pairs o) side mine target →
          s.Survives o.collect (s.pairs o) side mine target ∨
            ¬s.Held target ∧ (s.join o).2 = true) ∧
    (s.join o.collect).1.Trails (s.join o).1 ∧ ((s.join o).2 = true → (s.join o.collect).2 = true) ∧
    ((∀ (id : VarId) v, o.Held id → o.vars[id]? = some v →
      ∀ target, v.IsBound target → o.Held target) → s.join o.collect = s.join o) := by
  refine ⟨drawn.join_collect_eq_iff, drawn.trails_collect, changed_collect, fun whole => ?_⟩
  apply drawn.join_collect_eq_iff.mpr
  intro side kind mine v _ target _ survives
  exact .inl (survives.collect kind whole)

/-- One path decrements the index, and the index as it was is lost. The join is the same with it and
without it. -/
theorem join_collect_decremented :
    let s := indexed.fork
    let o := indexed.fork.increment 2 (-1)
    s.Drawn ∧ o.collect ≠ o ∧ s.join o.collect = s.join o ∧
      ((s.join o).1.local? 2).any (·.below.contains 0) = true := by
  intro s o
  obtain ⟨valuation, tracks⟩ := indexed_tracks
  have drawn : s.Drawn := tracks.wellFormed.toDrawn
  obtain ⟨-, -, -, same⟩ := join_collect s o drawn
  refine ⟨drawn, by decide +kernel, same ?_, by decide +kernel⟩
  have whole : ∀ id ∈ o.positions, ∀ target ∈ o.boundsOf id, target ∈ o.positions := by
    decide +kernel
  intro id v held found target bound
  exact mem_positions.mp (whole id (mem_positions.mpr held) target (mem_boundsOf found bound))

/-- The array that an index is bounded by is lost on one path: another one has been stored in its
slot. As long as the number of the lost array is still there, the join keeps the bound and tells
that nothing has changed; once it has been dropped, the join takes the bound away. -/
theorem join_sees_lost_array :
    let s := indexed.fork
    let o := overwritten
    (indexed.fork.load 1).store 0 = .ok o ∧ (s.join o).2 = false ∧ (s.join o.collect).2 = true ∧
      ((s.join o).1.local? 2).any (·.below.contains 0) = true ∧
      ((s.join o.collect).1.local? 2).any (·.below.isEmpty) = true := by
  decide +kernel

end Frame

end ArrayBounds
