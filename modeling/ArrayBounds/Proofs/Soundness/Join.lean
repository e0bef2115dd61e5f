import ArrayBounds.Proofs.Domain.Control
import ArrayBounds.Proofs.Soundness.Effects

/-! # Soundness of joins

A join weakens the variables of the receiving frame and keeps their numbers. So whatever the
receiving frame describes is still described afterwards. For the other frame this is not so: the
numbers stand for what its own positions hold, and a bound that both sides share may name a variable
that has moved to another position, or that several positions hold on one side only. The values of
the other frame have to be carried over to the numbers of the receiving frame, position by position,
and what is left of the variables has to hold of them there (`ArrayBounds.Frame.Carries`). That is
exactly when the join describes everything that the other frame describes
(`ArrayBounds.Frame.join_describes`), and it can be read off the two frames if the same numbers
stand for the same positions in both (`ArrayBounds.Frame.Aligned`).
-/

namespace ArrayBounds

/-! ## Weaker variables -/

/-- A variable that says no more than another one. -/
structure Variable.Weaker (w v : Variable) : Prop where
  sign : v.sign ≤ w.sign
  below : ∀ target ∈ w.below, target ∈ v.below
  atMost : ∀ target ∈ w.atMost, target ∈ v.atMost

namespace Variable

variable {u v w : Variable} {valuation : Valuation} {n : Int}

/-- A variable says no more than itself. -/
theorem Weaker.refl (v : Variable) : v.Weaker v :=
  ⟨Nat.le_refl _, fun _ member => member, fun _ member => member⟩

/-- Variables get weaker step by step. -/
theorem Weaker.trans (weaker : w.Weaker v) (more : v.Weaker u) : w.Weaker u :=
  ⟨Nat.le_trans more.sign weaker.sign,
    fun target member => more.below target (weaker.below target member),
    fun target member => more.atMost target (weaker.atMost target member)⟩

private theorem Holds.weaken (holds : v.Holds valuation n) (weaker : w.Weaker v) :
    w.Holds valuation n :=
  ⟨holds.sign.mono weaker.sign,
    fun target member => holds.below target (weaker.below target member),
    fun target member => holds.atMost target (weaker.atMost target member)⟩

end Variable

namespace Sign

/-- A join covers its first operand. -/
theorem le_join_left (a b : Sign) : a ≤ a.join b := by
  unfold join
  split
  case isTrue => exact Nat.le_refl _
  case isFalse above => exact le_of_not_le above

/-- A join covers its second operand. -/
theorem le_join_right (a b : Sign) : b ≤ a.join b := by
  unfold join
  split
  case isTrue below => exact below
  case isFalse => exact Nat.le_refl _

/-- Every possible sign contains the number one. -/
private theorem contains_one {sign : Sign} (possible : sign ≠ .bottom) : sign.Contains 1 := by
  cases sign with
  | bottom => exact absurd rfl possible
  | positive => exact Int.one_pos
  | nonNegative => exact Int.one_nonneg
  | top => trivial

end Sign

namespace Frame

variable {s o f g : Frame}

/-- What is left of a variable of `s` is shared by the variable `theirs` of `o`. -/
structure Shares (s o : Frame) (w theirs : Variable) : Prop where
  sign : theirs.sign ≤ w.sign
  below : ∀ target ∈ w.below, s.sharesBound o theirs.below target = true
  atMost : ∀ target ∈ w.atMost, s.sharesBound o theirs.atMost target = true

/-- A variable that says less shares what the stronger one shares. -/
theorem Shares.weaken {v w theirs : Variable} (shares : s.Shares o v theirs) (weaker : w.Weaker v) :
    s.Shares o w theirs :=
  ⟨Nat.le_trans shares.sign weaker.sign,
    fun target member => shares.below target (weaker.below target member),
    fun target member => shares.atMost target (weaker.atMost target member)⟩

/-- The frame `f` has come from `s` by joining variables of `o` according to the pairs. -/
structure Joined (s o : Frame) (pairs : List (VarId × VarId)) (f : Frame) : Prop where
  weaker : ∀ (id : VarId) (w : Variable), f.vars[id]? = some w →
    ∃ v, s.vars[id]? = some v ∧ w.Weaker v
  present : ∀ id, id ∈ s.vars → id ∈ f.vars
  shares : ∀ mine theirs, (mine, theirs) ∈ pairs → ∀ w v, f.vars[mine]? = some w →
    o.vars[theirs]? = some v → s.Shares o w v
  slots : ∀ id, f.slotOf id = s.slotOf id
  rest : f = { s.drawAfter o with vars := f.vars, pc := max s.pc o.pc }

namespace Joined

variable {pairs : List (VarId × VarId)} (joined : s.Joined o pairs f)
include joined

/-- Joining pairs leaves the stack alone. -/
theorem stack_eq : f.stack = s.stack := by rw [joined.rest]; rfl

/-- Joining pairs leaves the slots alone. -/
theorem locals_eq : f.locals = s.locals := by rw [joined.rest]; rfl

/-- Joining pairs leaves the returned value alone. -/
theorem returned_eq : f.returned = s.returned := by rw [joined.rest]; rfl

/-- Numbers are drawn behind those of both frames. -/
theorem nextId_eq : f.nextId = max s.nextId o.nextId := by rw [joined.rest]; rfl

end Joined

/-- Common bounds are those that the other variable shares. -/
theorem mem_commonBounds {mine theirs : Bounds} {target : VarId} :
    target ∈ f.commonBounds g mine theirs ↔ target ∈ mine ∧
      f.sharesBound g theirs target = true := by
  simp only [commonBounds, Std.ExtTreeSet.mem_filter, Std.ExtTreeSet.get_eq, exists_prop]

/-- Nothing happens to a pair if one of its variables is missing, and nothing is said about it. -/
theorem Joined.skip {pairs : List (VarId × VarId)} {mine theirs : VarId}
    (joined : s.Joined o pairs f) (missing : f.vars[mine]? = none ∨ o.vars[theirs]? = none) :
    s.Joined o (pairs ++ [(mine, theirs)]) f := by
  refine { joined with shares := ?_ }
  intro mine' theirs' member w v foundMine foundTheirs
  obtain member | member := List.mem_append.mp member
  · exact joined.shares mine' theirs' member w v foundMine foundTheirs
  · obtain ⟨rfl, rfl⟩ := Prod.mk.inj (List.mem_singleton.mp member)
    obtain missing | missing := missing
    · rw [missing] at foundMine
      cases foundMine
    · rw [missing] at foundTheirs
      cases foundTheirs

/-- A variable may be replaced by a weaker one that the other side shares. -/
theorem Joined.replace {pairs : List (VarId × VarId)} {mine theirs : VarId} {current w : Variable}
    (joined : s.Joined o pairs f) (found : f.vars[mine]? = some current) (weaker : w.Weaker current)
    (slot : w.slot = current.slot) (shares : ∀ v, o.vars[theirs]? = some v → s.Shares o w v) :
    s.Joined o (pairs ++ [(mine, theirs)]) { f with vars := f.vars.insert mine w } := by
  have look (id : VarId) : (f.vars.insert mine w)[id]? = if mine = id then some w
      else f.vars[id]? := by
    simp only [Std.ExtTreeMap.getElem?_insert, Std.LawfulEqCmp.compare_eq_iff_eq]
  refine ⟨?_, ?_, ?_, ?_, ?_⟩
  · intro id x present
    rw [look] at present
    split at present
    case isTrue same =>
      obtain rfl := Option.some.inj present
      obtain ⟨v, before, old⟩ := joined.weaker mine current found
      exact ⟨v, same ▸ before, weaker.trans old⟩
    case isFalse => exact joined.weaker id x present
  · exact fun id present => Std.ExtTreeMap.mem_insert.mpr (.inr (joined.present id present))
  · intro mine' theirs' member x v present there
    rw [look] at present
    split at present
    case isTrue same =>
      obtain rfl := Option.some.inj present
      obtain member | member := List.mem_append.mp member
      · exact (joined.shares mine' theirs' member current v (same ▸ found) there).weaken weaker
      · obtain ⟨rfl, rfl⟩ := Prod.mk.inj (List.mem_singleton.mp member)
        exact shares v there
    case isFalse different =>
      obtain member | member := List.mem_append.mp member
      · exact joined.shares mine' theirs' member x v present there
      · obtain ⟨rfl, rfl⟩ := Prod.mk.inj (List.mem_singleton.mp member)
        exact absurd rfl different
  · intro id
    rw [← joined.slots id]
    simp only [slotOf]
    rw [look]
    split
    case isTrue same => rw [← same, found, Option.bind_some, Option.bind_some, slot]
    case isFalse => rfl
  · rw [joined.rest]

/-- At the start of a join no pair has been joined. -/
theorem joined_start (s o : Frame) : s.Joined o [] { s.drawAfter o with pc := max s.pc o.pc } :=
  ⟨fun _ w found => ⟨w, found, .refl w⟩, fun _ present => present,
    fun _ _ member => absurd member List.not_mem_nil, fun _ => rfl, rfl⟩

/-- Joining one more pair goes on with the join. -/
private theorem Joined.joinVariable {pairs : List (VarId × VarId)} (joined : s.Joined o pairs f)
    (mine theirs : VarId) :
    s.Joined o (pairs ++ [(mine, theirs)]) (f.joinVariable o mine theirs).1 := by
  have sharesBound (bounds : Bounds) (target : VarId) :
      f.sharesBound o bounds target = s.sharesBound o bounds target := by
    simp only [Frame.sharesBound, joined.slots]
  unfold Frame.joinVariable
  cases foundMine : f.vars[mine]? with
  | none => exact joined.skip (.inl foundMine)
  | some current =>
      cases foundTheirs : o.vars[theirs]? with
      | none => exact joined.skip (.inr foundTheirs)
      | some incoming =>
          refine joined.replace foundMine ?_ rfl fun v there => ?_
          · exact ⟨Sign.le_join_left _ _, fun target member => (mem_commonBounds.mp member).1,
              fun target member => (mem_commonBounds.mp member).1⟩
          · obtain rfl := Option.some.inj (foundTheirs.symm.trans there)
            exact ⟨Sign.le_join_right _ _,
              fun target member => sharesBound _ _ ▸ (mem_commonBounds.mp member).2,
              fun target member => sharesBound _ _ ▸ (mem_commonBounds.mp member).2⟩

/-- Pairs may be joined one after the other. -/
theorem Joined.joinPairs {pairs : List (VarId × VarId)} (joined : s.Joined o pairs f)
    (more : List (VarId × VarId)) : s.Joined o (pairs ++ more) (f.joinPairs o more).1 := by
  induction more generalizing f pairs with
  | nil =>
      rw [List.append_nil]
      exact joined
  | cons pair more ih =>
      rw [joinPairs_cons, ← List.singleton_append, ← List.append_assoc]
      exact ih (joined.joinVariable pair.1 pair.2)

/-! ## Positions -/

/-- The variables that a join brings together: those in the same position, and those that are
returned. -/
def pairs (s o : Frame) : List (VarId × VarId) :=
  s.commonPositions o ++ s.returned.toList.zip o.returned.toList

/-- The live numbers are those that are held. -/
theorem mem_live {id : VarId} : id ∈ f.live ↔ f.Held id := by
  simp only [live, Held, Std.ExtTreeSet.mem_ofList, List.contains_iff_mem, List.mem_append,
    Array.mem_toList_iff, Option.mem_toList, or_assoc]

/-- Dropping what no position holds leaves a part of the variables, with a part of their bounds. -/
theorem vars_collect {id : VarId} {w : Variable} (found : f.collect.vars[id]? = some w) :
    f.Held id ∧ ∃ v, f.vars[id]? = some v ∧ w.Weaker v ∧
      ∀ target, w.IsBound target → f.Held target := by
  simp only [collect, Std.ExtTreeMap.getElem?_map, Option.map_eq_some_iff] at found
  obtain ⟨v, found, rfl⟩ := found
  rw [Std.ExtTreeMap.getElem?_filter, Option.pfilter_eq_some_iff] at found
  obtain ⟨present, held⟩ := found
  rw [Std.ExtTreeMap.getKey_eq, Std.ExtTreeSet.contains_iff_mem, mem_live] at held
  have kept {bounds : Bounds} {target : VarId} (member : target ∈ bounds.filter f.live.contains) :
      target ∈ bounds ∧ f.Held target := by
    simpa only [Std.ExtTreeSet.mem_filter, Std.ExtTreeSet.get_eq, exists_prop,
      Std.ExtTreeSet.contains_iff_mem, mem_live] using member
  refine ⟨held, v, present,
    ⟨Nat.le_refl _, fun _ member => (kept member).1, fun _ member => (kept member).1⟩, ?_⟩
  rintro target (member | member)
  · exact (kept member).2
  · exact (kept member).2

/-- What some position holds is kept with its sign. -/
theorem collect_of_held {id : VarId} {v : Variable} (held : f.Held id)
    (found : f.vars[id]? = some v) : ∃ w, f.collect.vars[id]? = some w ∧ w.sign = v.sign := by
  refine ⟨{ v with below := v.below.filter f.live.contains,
                   atMost := v.atMost.filter f.live.contains }, ?_, rfl⟩
  simp only [collect, Std.ExtTreeMap.getElem?_map, Option.map_eq_some_iff]
  refine ⟨v, ?_, rfl⟩
  rw [Std.ExtTreeMap.getElem?_filter, Option.pfilter_eq_some_iff]
  refine ⟨found, ?_⟩
  rw [Std.ExtTreeMap.getKey_eq, Std.ExtTreeSet.contains_iff_mem, mem_live]
  exact held

/-- A frame that the receiving frame can be after all variables are joined, before what is not held
is dropped. -/
inductive Merges (s o : Frame) : Frame → Prop where
  | joined {f : Frame} (joined : s.Joined o (s.pairs o) f)
      (known : s.returned.isSome ∨ o.returnedValue? = none) : Merges s o f
  /-- A frame that has not returned takes over the value that the other one has returned. -/
  | adopted {f : Frame} {id : VarId} {v : Variable} (joined : s.Joined o (s.pairs o) f)
      (fresh : s.returned = none) (returned : o.returned = some id) (found : o.vars[id]? = some v) :
      Merges s o { (f.alloc v.clearBounds).2 with returned := some f.nextId }

/-- A join merges the frames and drops what no position holds. -/
theorem join_merges (s o : Frame) : ∃ f, s.Merges o f ∧ (s.join o).1 = f.collect := by
  let start : Frame := { s.drawAfter o with pc := max s.pc o.pc }
  have positions : s.Joined o _ (start.joinPairs o (s.commonPositions o)).1 :=
    (joined_start s o).joinPairs _
  rw [List.nil_append] at positions
  refine ⟨((start.joinPairs o (s.commonPositions o)).1.joinReturned o).1, ?_, rfl⟩
  generalize (start.joinPairs o (s.commonPositions o)).1 = f at positions
  have mine : f.returned = s.returned := positions.returned_eq
  unfold joinReturned
  rw [mine]
  cases ours : s.returned with
  | none =>
      have same : s.pairs o = s.commonPositions o := by
        simp only [pairs, ours, Option.toList_none, List.zip_nil_left, List.append_nil]
      cases theirs : o.returned with
      | none =>
          exact .joined (same ▸ positions)
            (.inr (by simp only [returnedValue?, theirs, Option.bind_none]))
      | some id =>
          dsimp only
          cases found : o.vars[id]? with
          | none =>
              exact .joined (same ▸ positions)
                (.inr (by simp only [returnedValue?, theirs, Option.bind_some, found]))
          | some v => exact .adopted (same ▸ positions) ours theirs found
  | some id =>
      cases theirs : o.returned with
      | none =>
          have same : s.pairs o = s.commonPositions o := by
            simp only [pairs, theirs, Option.toList_none, List.zip_nil_right, List.append_nil]
          exact .joined (same ▸ positions) (.inl (by rw [ours]; rfl))
      | some other =>
          have same : s.pairs o = s.commonPositions o ++ [(id, other)] := by
            simp only [pairs, ours, theirs, Option.toList_some, List.zip_cons_cons,
              List.zip_nil_left]
          exact .joined (same ▸ positions.joinVariable id other) (.inl (by rw [ours]; rfl))

/-- A join leaves the stack of the receiving frame alone. -/
theorem join_stack (s o : Frame) : (s.join o).1.stack = s.stack := by
  obtain ⟨f, merges, same⟩ := join_merges s o
  rw [same]
  cases merges with
  | joined joined => exact joined.stack_eq
  | adopted joined => exact joined.stack_eq

/-- A join leaves the slots of the receiving frame alone. -/
theorem join_locals (s o : Frame) : (s.join o).1.locals = s.locals := by
  obtain ⟨f, merges, same⟩ := join_merges s o
  rw [same]
  cases merges with
  | joined joined => exact joined.locals_eq
  | adopted joined => exact joined.locals_eq

/-! ## The receiving side -/

/-- What fits the frame that is joined to fits the join. -/
private theorem Joined.fits {pairs : List (VarId × VarId)} {valuation : Valuation} {c : Concrete}
    (joined : s.Joined o pairs f) (fits : s.Fits valuation c) : f.Fits valuation c where
  vars id w found := by
    obtain ⟨v, present, weaker⟩ := joined.weaker id w found
    exact (fits.vars id v present).weaken weaker
  stack := joined.stack_eq ▸ fits.stack
  slots := joined.locals_eq ▸ fits.slots

/-- Joining pairs keeps the receiving frame well-formed. -/
theorem Joined.wellFormed {pairs : List (VarId × VarId)} (joined : s.Joined o pairs f)
    (wellFormed : s.WellFormed) : f.WellFormed := by
  have next : s.nextId ≤ f.nextId := joined.nextId_eq ▸ Nat.le_max_left _ _
  refine ⟨⟨?_, ?_, ?_, ?_⟩, ?_⟩
  · intro id w found target bound
    obtain ⟨v, present, weaker⟩ := joined.weaker id w found
    exact Nat.lt_of_lt_of_le
      (wellFormed.bounds id v present target
        (bound.imp (weaker.below target) (weaker.atMost target))) next
  · exact fun id member => Nat.lt_of_lt_of_le (wellFormed.stack id (joined.stack_eq ▸ member)) next
  · exact fun i id found =>
      Nat.lt_of_lt_of_le (wellFormed.locals i id (joined.locals_eq ▸ found)) next
  · exact fun id found =>
      Nat.lt_of_lt_of_le (wellFormed.returned id (joined.returned_eq ▸ found)) next
  · intro id w found
    obtain ⟨v, present, -⟩ := joined.weaker id w found
    exact Nat.lt_of_lt_of_le (wellFormed.keys id v present) next

/-- Collecting loses nothing that fits. -/
private theorem Fits.collect {valuation : Valuation} {c : Concrete} (fits : f.Fits valuation c) :
    f.collect.Fits valuation c where
  vars id w found := by
    obtain ⟨-, v, present, weaker, -⟩ := vars_collect found
    exact (fits.vars id v present).weaken weaker
  stack := fits.stack
  slots := fits.slots

/-- A join describes everything that the receiving frame describes, unless it takes over an
impossible value. -/
theorem join_describes_receiver {c : Concrete} (wellFormed : s.WellFormed)
    (possible : s.returned = none → ∀ v, o.returnedValue? = some v → v.sign ≠ .bottom)
    (describes : s.Describes c) : (s.join o).1.Describes c := by
  obtain ⟨valuation, fits⟩ := describes
  obtain ⟨f, merges, same⟩ := join_merges s o
  rw [same]
  cases merges with
  | joined joined => exact ⟨valuation, (joined.fits fits).collect⟩
  | @adopted f id v joined fresh returned found =>
      have value : o.returnedValue? = some v := by
        rw [returnedValue?, returned, Option.bind_some, found]
      have tracked : f.Tracks valuation c := ⟨joined.wellFormed wellFormed, joined.fits fits⟩
      have allocated :
          (f.alloc v.clearBounds).2.Tracks (Function.update valuation f.nextId (.int 1)) c :=
        tracked.alloc
          (fun target bound => absurd bound (Variable.not_isBound_of_unbounded rfl rfl))
          (Variable.holds_of_unbounded rfl rfl (Sign.contains_one (possible fresh v value)))
      exact ⟨_, Fits.collect { allocated.fits with }⟩

/-- A join that takes over an impossible value describes nothing. -/
theorem possible_of_describes {c : Concrete} {v : Variable} (fresh : s.returned = none)
    (returned : o.returnedValue? = some v) (describes : (s.join o).1.Describes c) :
    v.sign ≠ .bottom := by
  obtain ⟨valuation, fits⟩ := describes
  obtain ⟨f, merges, same⟩ := join_merges s o
  rw [same] at fits
  cases merges with
  | joined joined known =>
      rw [fresh, returned] at known
      simp at known
  | @adopted f id v' joined _ there found =>
      have value : o.returnedValue? = some v' := by
        rw [returnedValue?, there, Option.bind_some, found]
      obtain rfl := Option.some.inj (returned.symm.trans value)
      have adopted :
          ({ (f.alloc v.clearBounds).2 with returned := some f.nextId } : Frame).vars[f.nextId]? =
          some v.clearBounds := (vars_alloc f v.clearBounds f.nextId).trans (if_pos rfl)
      obtain ⟨w, kept, sign⟩ := collect_of_held (.inr (.inr rfl)) adopted
      have contains : v.sign.Contains (valuation f.nextId).magnitude :=
        sign ▸ (fits.vars f.nextId w kept).sign
      intro bottom
      rw [bottom] at contains
      exact contains

/-! ## The other side -/

/-- A join takes the variable `theirs` of `o` for the variable `mine` of `s` where bounds are
compared. -/
def Identifies (s o : Frame) (mine theirs : VarId) : Prop :=
  mine = theirs ∨ (s.slotOf mine).isSome ∧ o.slotOf theirs = s.slotOf mine

instance (s o : Frame) (mine theirs : VarId) : Decidable (s.Identifies o mine theirs) :=
  inferInstanceAs (Decidable (_ ∨ _))

/-- One step of a search for a bound. -/
def search (p : VarId → Bool) (id : VarId) (_ : Option Bool × Unit) :
    Id (ForInStep (Option Bool × Unit)) :=
  if p id = true then pure (.done (some true, ())) else pure (.yield (none, ()))

/-- A set of bounds is searched like its list. -/
private theorem any_bounds (bounds : Bounds) (p : VarId → Bool) :
    bounds.any p = bounds.toList.any p := by
  have found (ids : List VarId) :
      (forIn (m := Id) ids (none, ()) (search p)).run.1.getD false = ids.any p := by
    induction ids with
    | nil => rfl
    | cons id ids ih =>
        rw [List.forIn_cons, List.any_cons]
        unfold search
        cases p id with
        | true => rfl
        | false => exact ih
  rw [← found, ← Std.ExtTreeSet.forIn_eq_forIn_toList]
  obtain ⟨⟨⟨tree⟩⟩⟩ := bounds
  induction tree using Quotient.inductionOn with
  | h tree =>
      change tree.any (fun id _ => p id) =
        (forIn (m := Id) tree.inner (none, ()) fun entry => search p entry.1).run.1.getD false
      unfold Std.DTreeMap.any Std.DTreeMap.Internal.Impl.any search
      simp only [Id.run_bind]
      generalize forIn (m := Id) tree.inner (none, ()) _ = result
      cases result.1 <;> rfl

/-- A bound is shared if the frames identify it with one of the other bounds. -/
theorem sharesBound_iff {theirs : Bounds} {target : VarId} :
    s.sharesBound o theirs target = true ↔ ∃ target' ∈ theirs, s.Identifies o target target' := by
  simp only [sharesBound, Bool.or_eq_true, Bool.and_eq_true, Std.ExtTreeSet.contains_iff_mem,
    any_bounds, List.any_eq_true, Std.ExtTreeSet.mem_toList, beq_iff_eq, Identifies]
  constructor
  · rintro (member | ⟨labelled, target', member, same⟩)
    · exact ⟨target, member, .inl rfl⟩
    · exact ⟨target', member, .inr ⟨labelled, same⟩⟩
  · rintro ⟨target', member, rfl | ⟨labelled, same⟩⟩
    · exact .inl member
    · exact .inr ⟨labelled, target', member, same⟩

/-- The bounds of the variable with the given number. -/
def boundsOf (f : Frame) (id : VarId) : List VarId :=
  (f.vars[id]?.map fun v => v.below.toList ++ v.atMost.toList).getD []

/-- The bounds of a variable are among those that its number has. -/
theorem mem_boundsOf {id target : VarId} {v : Variable} (found : f.vars[id]? = some v)
    (bound : v.IsBound target) : target ∈ f.boundsOf id := by
  rw [boundsOf, found, Option.map_some, Option.getD_some, List.mem_append,
    Std.ExtTreeSet.mem_toList, Std.ExtTreeSet.mem_toList]
  exact bound

/-- The names of the variables of two frames match, as far as a join relies on them. -/
structure Aligned (s o : Frame) : Prop where
  /-- What is one variable of the receiving frame is one variable of the other. -/
  same : ∀ p ∈ s.pairs o, ∀ q ∈ s.pairs o, p.1 = q.1 → p.2 = q.2
  /-- What the other frame holds has a variable there. -/
  present : ∀ p ∈ s.pairs o, (o.vars[p.2]?).isSome
  /-- What a join takes for the same bound is in the same position. -/
  bounds : ∀ p ∈ s.pairs o, ∀ theirs ∈ o.boundsOf p.2,
    ∀ mine ∈ s.stack ++ s.locals.toList ++ s.returned.toList,
    s.Identifies o mine theirs → (mine, theirs) ∈ s.pairs o
  /-- A value that only the receiving frame has returned is possible whatever the other frame
  holds. -/
  returned : ∀ id ∈ s.returned, (∀ p ∈ s.pairs o, p.1 ≠ id) →
    ∀ v ∈ s.vars[id]?, v.below = ∅ ∧ v.atMost = ∅ ∧ v.sign ≠ .bottom

set_option synthInstance.maxSize 256 in
instance (s o : Frame) : Decidable (s.Aligned o) :=
  decidable_of_iff (_ ∧ _ ∧ _ ∧ _)
    ⟨fun ⟨same, present, bounds, returned⟩ => ⟨same, present, bounds, returned⟩,
    fun aligned => ⟨aligned.same, aligned.present, aligned.bounds, aligned.returned⟩⟩

/-- A bound that survives the join is a bound of the other side, in the position of the bound. -/
theorem Aligned.exists_bound (aligned : s.Aligned o) {mine theirs target : VarId} {v : Variable}
    {bounds : Bounds} (paired : (mine, theirs) ∈ s.pairs o) (found : o.vars[theirs]? = some v)
    (part : ∀ target ∈ bounds, v.IsBound target) (held : s.Held target)
    (shared : s.sharesBound o bounds target = true) :
    ∃ target' ∈ bounds, (target, target') ∈ s.pairs o := by
  obtain ⟨target', member, identified⟩ := sharesBound_iff.mp shared
  refine ⟨target', member,
    aligned.bounds _ paired target' (mem_boundsOf found (part target' member)) target ?_ identified⟩
  simpa only [Held, List.mem_append, Array.mem_toList_iff, Option.mem_toList, Option.mem_def,
    or_assoc] using held

/-! ## Values carried over -/

/-- The values of another frame under the numbers of this one, position by position. What is in no
position that both frames have gets the value `rest`. -/
def carried (s o : Frame) (valuation : Valuation) (rest : Value) : Valuation := fun id =>
  (((s.commonPositions o).lookup id).map valuation).getD rest

/-- Positions that hold one variable of the receiving frame hold one value on the other path. -/
def Consistent (s o : Frame) (valuation : Valuation) : Prop :=
  ∀ p ∈ s.commonPositions o, ∀ q ∈ s.commonPositions o, p.1 = q.1 → valuation p.2 = valuation q.2

/-- What a join says holds of the values that the other path has in the same positions. -/
structure Carries (s o : Frame) (valuation : Valuation) : Prop where
  consistent : s.Consistent o valuation
  satisfies : ∃ rest, (s.join o).1.Satisfies (s.carried o valuation rest)

variable {valuation : Valuation} {rest : Value} {c : Concrete} {mine theirs id : VarId}

private theorem mem_of_lookup {l : List (VarId × VarId)} (found : l.lookup mine = some theirs) :
    (mine, theirs) ∈ l := by
  obtain ⟨before, after, split, -⟩ := List.lookup_eq_some_iff.mp found
  rw [split]
  exact List.mem_append_right _ List.mem_cons_self

/-- A value is carried over from the position that it shares. -/
private theorem carried_of_mem (consistent : s.Consistent o valuation)
    (position : (mine, theirs) ∈ s.commonPositions o) :
    s.carried o valuation rest mine = valuation theirs := by
  unfold carried
  cases found : (s.commonPositions o).lookup mine with
  | none =>
      have different := List.lookup_eq_none_iff.mp found _ position
      simp at different
  | some other => exact consistent _ (mem_of_lookup found) _ position rfl

/-- Numbers that share no position take the value of the rest. -/
private theorem carried_of_not_mem (alone : ∀ theirs, (id, theirs) ∉ s.commonPositions o) :
    s.carried o valuation rest id = rest := by
  unfold carried
  cases found : (s.commonPositions o).lookup id with
  | none => rfl
  | some other => exact absurd (mem_of_lookup found) (alone other)

/-- In lists of the same length every position has a partner. -/
private theorem exists_mem_zip {l l' : List VarId} {i : Nat} (found : l[i]? = some id)
    (same : l.length = l'.length) : ∃ other, l'[i]? = some other ∧ (id, other) ∈ l.zip l' := by
  have inside : i < l'.length := same ▸ (List.getElem?_eq_some_iff.mp found).1
  have there := List.getElem?_eq_getElem inside
  exact ⟨_, there, List.mem_of_getElem? (List.getElem?_zip_eq_some.mpr ⟨found, there⟩)⟩

/-- Every slot shares a position with the same slot of the other frame. -/
private theorem exists_position_of_locals {i : Nat} (width : s.locals.size = o.locals.size)
    (found : s.locals[i]? = some id) :
    ∃ theirs, o.locals[i]? = some theirs ∧ (id, theirs) ∈ s.commonPositions o := by
  rw [← Array.getElem?_toList] at found
  have lengths : s.locals.toList.length = o.locals.toList.length := by
    rw [Array.length_toList, Array.length_toList, width]
  obtain ⟨theirs, there, position⟩ := exists_mem_zip found lengths
  rw [Array.getElem?_toList] at there
  exact ⟨theirs, there, List.mem_append_right _ position⟩

/-- Every position is shared if both frames have the same number of them. -/
theorem exists_position (height : s.stack.length = o.stack.length)
    (width : s.locals.size = o.locals.size) (held : id ∈ s.stack ∨ id ∈ s.locals) :
    ∃ theirs, (id, theirs) ∈ s.commonPositions o := by
  obtain onStack | inSlot := held
  · obtain ⟨i, found⟩ := List.mem_iff_getElem?.mp (List.mem_reverse.mpr onStack)
    have lengths : s.stack.reverse.length = o.stack.reverse.length := by
      rw [List.length_reverse, List.length_reverse, height]
    obtain ⟨theirs, -, position⟩ := exists_mem_zip found lengths
    exact ⟨theirs, List.mem_append_left _ position⟩
  · obtain ⟨i, found⟩ := Array.mem_iff_getElem?.mp inSlot
    obtain ⟨theirs, -, position⟩ := exists_position_of_locals width found
    exact ⟨theirs, position⟩

/-- The values on the stack are those of the other frame. -/
theorem map_carried_stack (consistent : s.Consistent o valuation)
    (height : s.stack.length = o.stack.length) :
    s.stack.map (s.carried o valuation rest) = o.stack.map valuation := by
  have zipped : s.stack.reverse.map (s.carried o valuation rest) =
      o.stack.reverse.map valuation := by
    have lengths : s.stack.reverse.length = o.stack.reverse.length := by
      rw [List.length_reverse, List.length_reverse, height]
    rw [← List.map_fst_zip (Nat.le_of_eq lengths), List.map_map]
    conv => rhs; rw [← List.map_snd_zip (Nat.le_of_eq lengths.symm), List.map_map]
    exact List.map_congr_left fun pair member =>
      carried_of_mem consistent (List.mem_append_left _ member)
  rw [List.map_reverse, List.map_reverse] at zipped
  exact List.reverse_inj.mp zipped

/-- What fits the frame that is joined in is described by the join, if values carry over. -/
private theorem Carries.describes (carries : s.Carries o valuation)
    (height : s.stack.length = o.stack.length) (width : s.locals.size = o.locals.size)
    (fits : o.Fits valuation c) : (s.join o).1.Describes c := by
  obtain ⟨consistent, rest, satisfies⟩ := carries
  refine ⟨s.carried o valuation rest, satisfies, ?_, ?_⟩
  · rw [join_stack, map_carried_stack consistent height, fits.stack]
  · intro i id value found held
    rw [join_locals] at found
    obtain ⟨theirs, there, position⟩ := exists_position_of_locals width found
    rw [carried_of_mem consistent position]
    exact fits.slots i theirs value there held

/-- Of a frame with the values of the valuation in all positions, a join says nothing but what the
values satisfy. -/
theorem eq_of_fits_join {carrier : Valuation}
    (fits : (s.join o).1.Fits carrier ⟨o.stack.map valuation,
      fun i => (o.locals[i]?).map valuation⟩) (position : (mine, theirs) ∈ s.commonPositions o) :
    carrier mine = valuation theirs := by
  obtain onStack | inSlot := List.mem_append.mp position
  · have operands : o.stack.reverse.map valuation = s.stack.reverse.map carrier := by
      rw [List.map_reverse, List.map_reverse, ← join_stack s o]
      exact congrArg List.reverse fits.stack
    obtain ⟨i, found⟩ := List.mem_iff_getElem?.mp onStack
    obtain ⟨here, there⟩ := List.getElem?_zip_eq_some.mp found
    have values := congrArg (·[i]?) operands
    simp only [List.getElem?_map, here, there, Option.map_some] at values
    exact (Option.some.inj values).symm
  · obtain ⟨i, found⟩ := List.mem_iff_getElem?.mp inSlot
    obtain ⟨here, there⟩ := List.getElem?_zip_eq_some.mp found
    rw [Array.getElem?_toList] at here there
    exact fits.slots i mine _ (join_locals s o ▸ here) (by simp only [there, Option.map_some])

/-- A join keeps only variables and bounds that are held. -/
theorem held_of_join {w : Variable} (found : (s.join o).1.vars[id]? = some w) :
    (s.join o).1.Held id ∧ ∀ target, w.IsBound target → (s.join o).1.Held target := by
  obtain ⟨f, -, same⟩ := join_merges s o
  rw [same] at found ⊢
  obtain ⟨held, -, -, -, bounds⟩ := vars_collect found
  exact ⟨held, bounds⟩

/-- If a join describes all that the other frame describes, the values of the other frame can be
carried over. -/
theorem carries_of_describes (height : s.stack.length = o.stack.length)
    (width : s.locals.size = o.locals.size) (sound : ∀ c, o.Describes c → (s.join o).1.Describes c)
    (satisfies : o.Satisfies valuation) : s.Carries o valuation := by
  have full : o.Fits valuation ⟨o.stack.map valuation, fun i => (o.locals[i]?).map valuation⟩ := by
    refine ⟨satisfies, rfl, fun i id value found held => ?_⟩
    replace held : (o.locals[i]?).map valuation = some value := held
    rw [found] at held
    exact Option.some.inj held
  obtain ⟨carrier, fits⟩ := sound _ ⟨valuation, full⟩
  have consistent : s.Consistent o valuation := by
    intro p here q there same
    rw [← eq_of_fits_join fits here, ← eq_of_fits_join fits there, same]
  refine ⟨consistent, ((s.join o).1.returned.map carrier).getD default, ?_⟩
  -- Only the returned value is in no position.
  have agrees {id : VarId} (held : (s.join o).1.Held id) :
      s.carried o valuation (((s.join o).1.returned.map carrier).getD default) id = carrier id := by
    by_cases position : ∃ theirs, (id, theirs) ∈ s.commonPositions o
    · obtain ⟨theirs, position⟩ := position
      rw [carried_of_mem consistent position, eq_of_fits_join fits position]
    · have returned : (s.join o).1.returned = some id := by
        rw [Held, join_stack, join_locals, ← or_assoc] at held
        exact held.resolve_left fun held => position (exists_position height width held)
      rw [carried_of_not_mem fun theirs member => position ⟨theirs, member⟩, returned]
      rfl
  intro id w found
  obtain ⟨held, bounds⟩ := held_of_join found
  rw [agrees held]
  exact (fits.vars id w found).transport fun target bound => agrees (bounds target bound)

/-! ## Names that match -/

/-- The value that a frame returns, or some number if it does not return any. -/
def result (f : Frame) (valuation : Valuation) : Value :=
  (f.returned.map valuation).getD (.int 1)

/-- Pairs are the common positions and the two returned values. -/
theorem mem_pairs : (mine, theirs) ∈ s.pairs o ↔
    (mine, theirs) ∈ s.commonPositions o ∨ s.returned = some mine ∧ o.returned = some theirs := by
  rw [pairs, List.mem_append]
  refine or_congr_right ?_
  cases s.returned <;> cases o.returned <;> simp [eq_comm]

private theorem Aligned.consistent (aligned : s.Aligned o) : s.Consistent o valuation :=
  fun p here q there same => congrArg valuation
    (aligned.same p (List.mem_append_left _ here) q (List.mem_append_left _ there) same)

/-- Also the returned values are carried over. -/
theorem Aligned.carried_of_pair (aligned : s.Aligned o) (paired : (mine, theirs) ∈ s.pairs o) :
    s.carried o valuation (o.result valuation) mine = valuation theirs := by
  by_cases position : ∃ other, (mine, other) ∈ s.commonPositions o
  · obtain ⟨other, position⟩ := position
    obtain rfl : other = theirs := aligned.same _ (List.mem_append_left _ position) _ paired rfl
    exact carried_of_mem aligned.consistent position
  · obtain found | ⟨-, returned⟩ := mem_pairs.mp paired
    · exact absurd ⟨theirs, found⟩ position
    · rw [carried_of_not_mem fun other member => position ⟨other, member⟩, result, returned]
      rfl

/-- What the join says about a pair of variables holds of the value in the other frame. -/
theorem Joined.holds_carried {w w' : Variable} (joined : s.Joined o (s.pairs o) f)
    (aligned : s.Aligned o) (satisfies : o.Satisfies valuation)
    (paired : (mine, theirs) ∈ s.pairs o) (found : f.vars[mine]? = some w) (weaker : w'.Weaker w)
    (held : ∀ target, w'.IsBound target → s.Held target) :
    w'.Holds (s.carried o valuation (o.result valuation))
      (s.carried o valuation (o.result valuation) mine).magnitude := by
  obtain ⟨v', there⟩ := Option.isSome_iff_exists.mp (aligned.present _ paired)
  have shares := (joined.shares mine theirs paired w v' found there).weaken weaker
  have holds := satisfies theirs v' there
  rw [aligned.carried_of_pair paired]
  refine ⟨holds.sign.mono shares.sign, ?_, ?_⟩
  · intro target member
    obtain ⟨target', bound, pair⟩ := aligned.exists_bound paired there (fun _ => .inl)
      (held target (.inl member)) (shares.below target member)
    rw [aligned.carried_of_pair pair]
    exact holds.below target' bound
  · intro target member
    obtain ⟨target', bound, pair⟩ := aligned.exists_bound paired there (fun _ => .inr)
      (held target (.inr member)) (shares.atMost target member)
    rw [aligned.carried_of_pair pair]
    exact holds.atMost target' bound

/-- A value that only the receiving frame has returned is possible whatever the other frame
holds. -/
theorem Joined.holds_alone {w w' : Variable} (joined : s.Joined o (s.pairs o) f)
    (aligned : s.Aligned o) (returned : s.returned = some id)
    (alone : ∀ theirs, (id, theirs) ∉ s.pairs o) (found : f.vars[id]? = some w)
    (weaker : w'.Weaker w) :
    w'.Holds (s.carried o valuation (o.result valuation))
      (s.carried o valuation (o.result valuation) id).magnitude := by
  have unreturned : o.returned = none := by
    cases theirs : o.returned with
    | none => rfl
    | some other => exact absurd (mem_pairs.mpr (.inr ⟨returned, theirs⟩)) (alone other)
  obtain ⟨v, here, old⟩ := joined.weaker id w found
  obtain ⟨below, atMost, possible⟩ :=
    aligned.returned id returned (fun p member same => alone p.2 (same ▸ member)) v here
  rw [carried_of_not_mem fun theirs member => alone theirs (List.mem_append_left _ member),
    result, unreturned]
  exact (Variable.holds_of_unbounded below atMost (Sign.contains_one possible)).weaken
    (weaker.trans old)

/-- The variables of shared positions have been drawn. -/
private theorem lt_of_position (wellFormed : s.WellFormed)
    (position : (mine, theirs) ∈ s.commonPositions o) : mine < s.nextId := by
  obtain onStack | inSlot := List.mem_append.mp position
  · exact wellFormed.stack mine (List.mem_reverse.mp (List.of_mem_zip onStack).1)
  · obtain ⟨i, found⟩ :=
      Array.mem_iff_getElem?.mp (Array.mem_toList_iff.mp (List.of_mem_zip inSlot).1)
    exact wellFormed.locals i mine found

/-- A value that is taken over has a number of its own, so the number is in no position. -/
theorem Joined.holds_adopted {v w : Variable} {pairs : List (VarId × VarId)}
    (joined : s.Joined o pairs f) (wellFormed : s.WellFormed) (satisfies : o.Satisfies valuation)
    (returned : o.returned = some id) (found : o.vars[id]? = some v)
    (weaker : w.Weaker v.clearBounds) :
    w.Holds (s.carried o valuation (o.result valuation))
      (s.carried o valuation (o.result valuation) f.nextId).magnitude := by
  have next : s.nextId ≤ f.nextId := joined.nextId_eq ▸ Nat.le_max_left _ _
  have alone (theirs : VarId) (member : (f.nextId, theirs) ∈ s.commonPositions o) : False :=
    absurd (lt_of_position wellFormed member) (Nat.not_lt.mpr next)
  have value : o.result valuation = valuation id := by
    rw [result, returned, Option.map_some, Option.getD_some]
  have holds :
      v.clearBounds.Holds (s.carried o valuation (valuation id)) (valuation id).magnitude :=
    Variable.holds_of_unbounded rfl rfl (satisfies id v found).sign
  rw [carried_of_not_mem alone, value]
  exact holds.weaken weaker

/-- If the names of the variables match, all values of the other frame can be carried over. -/
theorem Aligned.carries (aligned : s.Aligned o) (wellFormed : s.WellFormed)
    (height : s.stack.length = o.stack.length) (width : s.locals.size = o.locals.size)
    (satisfies : o.Satisfies valuation) : s.Carries o valuation := by
  refine ⟨aligned.consistent, o.result valuation, fun id w' found => ?_⟩
  obtain ⟨f, merges, same⟩ := join_merges s o
  rw [same] at found
  obtain ⟨held, w, present, weaker, bounds⟩ := vars_collect found
  cases merges with
  | joined joined =>
      simp only [Held, joined.stack_eq, joined.locals_eq, joined.returned_eq] at held bounds
      by_cases paired : ∃ theirs, (id, theirs) ∈ s.pairs o
      · obtain ⟨theirs, paired⟩ := paired
        exact joined.holds_carried aligned satisfies paired present weaker bounds
      · have alone (theirs : VarId) (member : (id, theirs) ∈ s.pairs o) : False :=
          paired ⟨theirs, member⟩
        have returned : s.returned = some id := by
          rw [← or_assoc] at held
          refine held.resolve_left fun position => ?_
          obtain ⟨theirs, position⟩ := exists_position height width position
          exact alone theirs (List.mem_append_left _ position)
        exact joined.holds_alone aligned returned alone present weaker
  | @adopted f r v joined fresh returned there =>
      have next : s.nextId ≤ f.nextId := joined.nextId_eq ▸ Nat.le_max_left _ _
      have positions {id : VarId} (different : f.nextId ≠ id)
          (held : ({ (f.alloc v.clearBounds).2 with returned := some f.nextId } : Frame).Held id) :
          id ∈ s.stack ∨ id ∈ s.locals := by
        obtain onStack | inSlot | returned := held
        · exact .inl (joined.stack_eq ▸ onStack)
        · exact .inr (joined.locals_eq ▸ inSlot)
        · exact absurd (Option.some.inj returned) different
      replace present : (f.alloc v.clearBounds).2.vars[id]? = some w := present
      rw [vars_alloc] at present
      split at present
      case isTrue same =>
        obtain rfl := Option.some.inj present
        exact same ▸ joined.holds_adopted wellFormed satisfies returned there weaker
      case isFalse different =>
        obtain ⟨theirs, position⟩ := exists_position height width (positions different held)
        refine joined.holds_carried aligned satisfies (List.mem_append_left _ position)
          present weaker fun target bound => ?_
        obtain ⟨u, here, old⟩ := joined.weaker id w present
        have older : target < s.nextId := wellFormed.bounds id u here target
          (bound.imp ((weaker.trans old).below target) ((weaker.trans old).atMost target))
        have position := positions (Nat.ne_of_gt (Nat.lt_of_lt_of_le older next))
          (bounds target bound)
        exact position.imp_right .inl

/-! ## Both sides -/

/-- A join describes everything that the receiving frame describes unless it takes over an
impossible returned value. It describes everything that the other frame describes exactly if the
values of the other frame, carried over position by position, satisfy what is left; and they do if
the names of the variables match. -/
theorem join_describes (s o : Frame) (wellFormed : s.WellFormed)
    (height : s.stack.length = o.stack.length) (width : s.locals.size = o.locals.size) :
    ((∀ c, s.Describes c → (s.join o).1.Describes c) ↔
      ((∃ c, s.Describes c) → s.returned = none →
        ∀ v, o.returnedValue? = some v → v.sign ≠ .bottom)) ∧
    ((∀ c, o.Describes c → (s.join o).1.Describes c) ↔
      ∀ valuation, o.Satisfies valuation → s.Carries o valuation) ∧
    (s.Aligned o → ∀ valuation, o.Satisfies valuation → s.Carries o valuation) := by
  refine ⟨⟨?_, ?_⟩, ⟨?_, ?_⟩, ?_⟩
  · rintro sound ⟨c, describes⟩ fresh v returned
    exact possible_of_describes fresh returned (sound c describes)
  · intro possible c describes
    exact join_describes_receiver wellFormed (possible ⟨c, describes⟩) describes
  · intro sound valuation satisfies
    exact carries_of_describes height width sound satisfies
  · rintro carries c ⟨valuation, fits⟩
    exact (carries valuation fits.vars).describes height width fits
  · intro aligned valuation satisfies
    exact aligned.carries wellFormed height width satisfies

/-! ## Arrays that have moved -/

/-- Two arrays and an index, after an access to the first array with the index. -/
def indexed : Frame :=
  (((({} : Frame).addLocals 3).assumeSign 2 .nonNegative).checkAccess ⟨0, 2⟩).1

/-- Two arrays of the lengths 5 and 1, and the index 2. -/
def twoArrays : Slots := fun slot =>
  if slot = 0 then some (.reference 5)
  else if slot = 1 then some (.reference 1)
  else if slot = 2 then some (.int 2)
  else none

/-- The frame describes the arrays and the index. -/
theorem indexed_tracks : ∃ valuation, indexed.Tracks valuation ⟨[], twoArrays⟩ := by
  obtain ⟨valuation, tracks, -⟩ := (Tracks.empty twoArrays).addLocals 3
  have array : valuation 0 = .reference 5 := tracks.fits.slots 0 0 _ (by decide +kernel) rfl
  have index : valuation 2 = .int 2 := tracks.fits.slots 2 2 _ (by decide +kernel) rfl
  have sign : Sign.nonNegative.Contains (valuation 2).magnitude := by
    rw [index]; exact Int.le_of_lt (by decide)
  have inBounds : (valuation 2).magnitude < (valuation 0).magnitude := by rw [array, index]; decide
  exact ⟨valuation, (tracks.assumeSign sign).checkAccess ⟨0, 2⟩ (by decide +kernel) inBounds⟩

/-- One path decrements the index: the index is still below the length of the first array where the
paths meet. -/
theorem join_describes_decremented :
    let s := indexed.fork
    let o := indexed.fork.increment 2 (-1)
    s.WellFormed ∧ s.stack.length = o.stack.length ∧ s.locals.size = o.locals.size ∧ s.Aligned o ∧
      (s.join o).1.Describes ⟨[], twoArrays⟩ ∧
      (s.join o).1.Describes ⟨[], twoArrays.store 2 (.int 1)⟩ ∧
      ((s.join o).1.local? 2).any (·.below.contains 0) = true := by
  intro s o
  obtain ⟨valuation, tracks⟩ := indexed_tracks
  obtain ⟨valuation', moved⟩ :=
    tracks.increment (show twoArrays (2 : UInt16).toNat = some (.int 2) from rfl) (-1)
  have wellFormed : s.WellFormed := tracks.wellFormed
  have height : s.stack.length = o.stack.length := by decide +kernel
  have width : s.locals.size = o.locals.size := by decide +kernel
  have aligned : s.Aligned o := by decide +kernel
  have nothing : o.returnedValue? = none := by decide +kernel
  obtain ⟨receiver, other, carries⟩ := join_describes s o wellFormed height width
  have described := receiver.mpr fun _ _ v returned =>
    absurd (nothing.symm.trans returned) (by simp)
  exact ⟨wellFormed, height, width, aligned, described _ ⟨valuation, tracks.fits⟩,
    other.mpr (carries aligned) _ ⟨valuation', moved.fits⟩, by decide +kernel⟩

/-- The second array has been put into the slot of the first. -/
def overwritten : Frame :=
  ((indexed.fork.load 1).store 0).toOption.getD {}

/-- A run on which the second array has been put into the slot of the first. Where its path meets
the one without a change, the index counts as being in bounds for the array in the slot, and it is
not. -/
theorem join_misses_moved_array :
    let s := indexed.fork
    let o := overwritten
    let c : Concrete := ⟨[], twoArrays.store 0 (.reference 1)⟩
    (indexed.fork.load 1).store 0 = .ok o ∧ s.WellFormed ∧ s.stack.length = o.stack.length ∧
      s.locals.size = o.locals.size ∧ o.Describes c ∧ ¬(s.join o).1.Describes c ∧
      (s.join o).1.localId? 0 = some 0 ∧ ((s.join o).1.local? 2).any (·.isSafeFor 0) = true := by
  intro s o c
  obtain ⟨valuation, tracks⟩ := indexed_tracks
  obtain ⟨_, loaded⟩ :=
    tracks.load (show twoArrays (1 : UInt16).toNat = some (.reference 1) from rfl)
  obtain ⟨valuation', g, stored, moved⟩ := loaded.store 0
  have same : o = g := congrArg (fun result => result.toOption.getD {}) stored
  have described : o.Describes c := ⟨valuation', same ▸ moved.fits⟩
  refine ⟨same ▸ stored, tracks.wellFormed, by decide +kernel, by decide +kernel, described,
    ?_, by decide +kernel, by decide +kernel⟩
  rintro ⟨joined, fits⟩
  have array : joined 0 = .reference 1 := fits.slots 0 0 _ (by decide +kernel) rfl
  have index : joined 2 = .int 2 := fits.slots 2 2 _ (by decide +kernel) rfl
  have bounded : ((s.join o).1.vars[2]?).any (·.below.contains 0) = true := by decide +kernel
  obtain ⟨v, found, member⟩ := (Option.any_eq_true _ _).mp bounded
  have inBounds := (fits.vars 2 v found).below 0 (Std.ExtTreeSet.contains_iff_mem.mp member)
  rw [array, index] at inBounds
  exact absurd inBounds (by decide)

end Frame

end ArrayBounds
