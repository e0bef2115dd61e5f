import ArrayBounds.Proofs.Analysis.Steps
import ArrayBounds.Proofs.Loader.Loads
import Mathlib.Data.List.Perm.Subperm
import Mathlib.Logic.Relation

/-! # The search for a method

A call leads to the first class on the way up from its owner that has the method and a body for it.
The relation `ArrayBounds.Setting.Searches` says, without any bound, which classes a search visits
and how it ends. A search that ends visits analysed classes only, and no class twice. One that does
not end comes to a class that is among its own superclasses, and then no bound is large enough for
it (`ArrayBounds.Setting.resolve_ends_iff`).
-/

namespace ArrayBounds

open Program Interpreter

/-- How a search for a method ends. -/
inductive Ending where
  | found (target : Body)
  | outside (className : String)
  | unloaded (className : String)
  | unknown

/-- What a search with this ending leads to: a method, a call that is not followed, or an error. -/
def Ending.answer (setting : Setting) (method : MethodKey) : Ending → Analysis (Option Body)
  | found target => return some target
  | outside className => do
    Analysis.emit setting (.methodOutside method className)
    return none
  | unloaded className => do
    Analysis.emit setting (.classMissing method className)
    return none
  | unknown => throw (.methodNotFound method.className method.name method.descriptor)

/-- A search that ends has not run out of steps. -/
private theorem Ending.answer_ne_exhausted (setting : Setting) (method : MethodKey)
    (ending : Ending) (before after : Run) :
    ending.answer setting method before ≠ .error .exhausted after := by
  have ignored (event : Event) :
      (Analysis.emit setting event >>= fun _ => pure (none : Option Body)) before ≠
      .error .exhausted after := by
    obtain ⟨log, done⟩ := Analysis.emit_succeeds setting event before
    rw [EStateM.bind_of_ok done]
    exact nofun
  cases ending with
  | found target => exact nofun
  | outside className => exact ignored _
  | unloaded className => exact ignored _
  | unknown => exact nofun

namespace Setting

/-- The search goes on from an analysed class to its superclass: the class does not have the method,
or without a body. -/
structure Passes (setting : Setting) (method : MethodKey) (name : String) (next : Option String) :
    Prop where
  analyzed : name ∈ setting.analyzed
  step : ∃ owner, setting.repository.lookup? name = some owner ∧ owner.superName = next ∧
    ∀ found, owner.findMethod? method.name method.descriptor = some found →
      found.access.isAbstract = true

/-- The search goes on from the first class to the second one. -/
def LeadsUp (setting : Setting) (method : MethodKey) (lower upper : String) : Prop :=
  setting.Passes method lower (some upper)

/-- A search that starts at a class looks at the listed classes, and ends. -/
inductive Searches (setting : Setting) (method : MethodKey) :
    Option String → List String → Ending → Prop where
  | root : Searches setting method none [] .unknown
  | outside {name : String} (left : name ∉ setting.analyzed) : Searches setting method (some name)
      [] (.outside name)
  | unloaded {name : String} (analyzed : name ∈ setting.analyzed)
      (missing : setting.repository.lookup? name = none) :
      Searches setting method (some name) [name] (.unloaded name)
  | found {name : String} {owner : ClassDef} {declared : Method}
      (analyzed : name ∈ setting.analyzed) (stored : setting.repository.lookup? name = some owner)
      (has : owner.findMethod? method.name method.descriptor = some declared)
      (concrete : declared.access.isAbstract = false) :
      Searches setting method (some name) [name] (.found { owner, method := declared })
  | up {name : String} {next : Option String} {visited : List String} {ending : Ending}
      (passes : setting.Passes method name next)
      (further : Searches setting method next visited ending) :
      Searches setting method (some name) (name :: visited) ending

/-- A search that starts at the class never ends. -/
def Endless (setting : Setting) (method : MethodKey) (name : String) : Prop :=
  ∀ visited ending, ¬setting.Searches method (some name) visited ending

/-- The search comes to a class from which it leads back to that class. -/
def Circles (setting : Setting) (method : MethodKey) (name : String) : Prop :=
  ∃ other, Relation.ReflTransGen (setting.LeadsUp method) name other ∧
    Relation.TransGen (setting.LeadsUp method) other other

variable {setting : Setting} {method : MethodKey} {name : String} {next : Option String}
  {visited : List String} {ending : Ending}

/-! ## Steps of the bounded search -/

private theorem not_isAnalyzed_eq_false (analyzed : name ∈ setting.analyzed) :
    ¬(!setting.isAnalyzed name) = true := by
  simpa [isAnalyzed] using analyzed

/-- A search ends at a class that is not analysed. -/
private theorem resolveFrom_outside (left : name ∉ setting.analyzed) (bound : Nat) :
    resolveFrom setting method (bound + 1) (some name) =
      Ending.answer setting method (.outside name) := by
  have skipped : (!setting.isAnalyzed name) = true := by simpa [isAnalyzed] using left
  rw [resolveFrom, if_pos skipped]
  rfl

/-- A search ends at a class that is not loaded. -/
private theorem resolveFrom_unloaded (analyzed : name ∈ setting.analyzed)
    (missing : setting.repository.lookup? name = none) (bound : Nat) :
    resolveFrom setting method (bound + 1) (some name) =
      Ending.answer setting method (.unloaded name) := by
  rw [resolveFrom, if_neg (not_isAnalyzed_eq_false analyzed), missing]
  rfl

/-- A search ends at a class with a concrete method. -/
private theorem resolveFrom_found {owner : ClassDef} {declared : Method}
    (analyzed : name ∈ setting.analyzed) (stored : setting.repository.lookup? name = some owner)
    (has : owner.findMethod? method.name method.descriptor = some declared)
    (concrete : declared.access.isAbstract = false) (bound : Nat) :
    resolveFrom setting method (bound + 1) (some name) =
      Ending.answer setting method (.found { owner, method := declared }) := by
  rw [resolveFrom, if_neg (not_isAnalyzed_eq_false analyzed), stored]
  dsimp only
  rw [has]
  exact if_neg (by rw [concrete]; exact Bool.false_ne_true)

/-- A search passes over all other classes to their superclasses. -/
private theorem resolveFrom_passes (passes : setting.Passes method name next) (bound : Nat) :
    resolveFrom setting method (bound + 1) (some name) = resolveFrom setting method bound next := by
  obtain ⟨analyzed, owner, stored, rfl, bodiless⟩ := passes
  rw [resolveFrom, if_neg (not_isAnalyzed_eq_false analyzed), stored]
  dsimp only
  cases has : owner.findMethod? method.name method.descriptor with
  | none => rfl
  | some declared => exact if_pos (bodiless declared has)

/-- At each class a search ends, or it passes the class. -/
theorem ends_or_passes (setting : Setting) (method : MethodKey) (name : String) :
    (∃ visited ending, setting.Searches method (some name) visited ending) ∨
      ∃ next, setting.Passes method name next := by
  by_cases analyzed : name ∈ setting.analyzed
  · cases stored : setting.repository.lookup? name with
    | none => exact .inl ⟨_, _, .unloaded analyzed stored⟩
    | some owner =>
        cases has : owner.findMethod? method.name method.descriptor with
        | none => exact .inr ⟨owner.superName, analyzed, owner, stored, rfl, by simp [has]⟩
        | some declared =>
            cases abstract : declared.access.isAbstract with
            | true =>
                exact .inr ⟨owner.superName, analyzed, owner, stored, rfl, by simp [has, abstract]⟩
            | false => exact .inl ⟨_, _, .found analyzed stored has abstract⟩
  · exact .inl ⟨_, _, .outside analyzed⟩

/-! ## Searches that end -/

/-- A search goes on in one way only. -/
private theorem Passes.unique {next' : Option String} (passes : setting.Passes method name next)
    (passes' : setting.Passes method name next') : next = next' := by
  obtain ⟨-, owner, stored, rfl, -⟩ := passes
  obtain ⟨-, owner', stored', rfl, -⟩ := passes'
  rw [Option.some.inj (stored.symm.trans stored')]

/-- A class that is passed is not one where a search ends. -/
theorem Searches.of_passes (search : setting.Searches method (some name) visited ending)
    (passes : setting.Passes method name next) :
    ∃ rest, visited = name :: rest ∧ setting.Searches method next rest ending := by
  cases search with
  | outside left => exact absurd passes.analyzed left
  | unloaded _ missing =>
      obtain ⟨-, owner, stored, -⟩ := passes
      exact absurd (stored.symm.trans missing) (Option.some_ne_none owner)
  | found _ stored has concrete =>
      obtain ⟨-, owner, stored', -, bodiless⟩ := passes
      obtain rfl := Option.some.inj (stored.symm.trans stored')
      exact absurd (bodiless _ has) (by rw [concrete]; exact Bool.false_ne_true)
  | up passes' further => exact ⟨_, rfl, passes'.unique passes ▸ further⟩

/-- Behind a passed class, what is left of a search is shorter. -/
theorem Searches.shorter {other : String}
    (search : setting.Searches method (some name) visited ending)
    (chain : Relation.TransGen (setting.LeadsUp method) name other) :
    ∃ rest, rest.length < visited.length ∧ setting.Searches method (some other) rest ending := by
  induction chain with
  | single passes =>
      obtain ⟨rest, rfl, further⟩ := search.of_passes passes
      exact ⟨rest, Nat.lt_succ_self _, further⟩
  | tail _ passes ih =>
      obtain ⟨rest, shorter, further⟩ := ih
      obtain ⟨rest', rfl, further'⟩ := further.of_passes passes
      exact ⟨rest', Nat.lt_of_succ_lt shorter, further'⟩

/-- A search that ends does not come back to a class. -/
theorem Searches.not_circular (search : setting.Searches method (some name) visited ending) :
    ¬Relation.TransGen (setting.LeadsUp method) name name := by
  intro chain
  -- Going round once more would leave a shorter search from the same class, and so on.
  induction length : visited.length using Nat.strongRecOn generalizing visited with
  | ind length ih =>
      obtain ⟨rest, shorter, again⟩ := search.shorter chain
      exact ih rest.length (length ▸ shorter) again rfl

/-- A class leads up to all classes that the search behind it looks at. -/
theorem Searches.leadsUp (search : setting.Searches method next visited ending)
    (passes : setting.Passes method name next) {other : String} (member : other ∈ visited) :
    Relation.TransGen (setting.LeadsUp method) name other := by
  induction search generalizing name with
  | root => exact absurd member List.not_mem_nil
  | outside _ => exact absurd member List.not_mem_nil
  | unloaded _ _ =>
      obtain rfl := List.mem_singleton.mp member
      exact .single passes
  | found _ _ _ _ =>
      obtain rfl := List.mem_singleton.mp member
      exact .single passes
  | up passes' _ ih =>
      rcases List.mem_cons.mp member with rfl | member
      · exact .single passes
      · exact .head passes (ih passes' member)

/-- A search that ends visits no class twice. -/
private theorem Searches.nodup (search : setting.Searches method next visited ending) :
    visited.Nodup := by
  induction search with
  | root => exact List.nodup_nil
  | outside _ => exact List.nodup_nil
  | unloaded _ _ => exact List.pairwise_singleton _ _
  | found _ _ _ _ => exact List.pairwise_singleton _ _
  | up passes further ih =>
      refine List.nodup_cons.mpr ⟨fun member => ?_, ih⟩
      exact (Searches.up passes further).not_circular (further.leadsUp passes member)

/-- A search visits analysed classes only. -/
private theorem Searches.subset_analyzed (search : setting.Searches method next visited ending) :
    visited ⊆ setting.analyzed := by
  induction search with
  | root => exact List.nil_subset _
  | outside _ => exact List.nil_subset _
  | unloaded analyzed _ => exact List.cons_subset.mpr ⟨analyzed, List.nil_subset _⟩
  | found analyzed _ _ _ => exact List.cons_subset.mpr ⟨analyzed, List.nil_subset _⟩
  | up passes _ ih => exact List.cons_subset.mpr ⟨passes.analyzed, ih⟩

private theorem Searches.length_le (search : setting.Searches method next visited ending) :
    visited.length ≤ setting.analyzed.length :=
  (List.subperm_of_subset search.nodup search.subset_analyzed).length_le

/-- With a bound above the number of visited classes, the bounded search ends in the same way. -/
theorem Searches.resolveFrom_eq (search : setting.Searches method next visited ending) {bound : Nat}
    (enough : visited.length < bound) :
    resolveFrom setting method bound next = ending.answer setting method := by
  obtain ⟨bound, rfl⟩ := Nat.exists_eq_add_one_of_ne_zero (Nat.ne_zero_of_lt enough)
  induction search generalizing bound with
  | root => rfl
  | outside left => exact resolveFrom_outside left bound
  | unloaded analyzed missing => exact resolveFrom_unloaded analyzed missing bound
  | found analyzed stored has concrete => exact resolveFrom_found analyzed stored has concrete bound
  | up passes _ ih =>
      have less := Nat.lt_of_succ_lt_succ enough
      obtain ⟨bound, rfl⟩ := Nat.exists_eq_add_one_of_ne_zero (Nat.ne_zero_of_lt less)
      rw [resolveFrom_passes passes]
      exact ih bound less

/-! ## Searches that do not end -/

/-- A search that does not end passes its first class, and does not end behind it. -/
theorem exists_leadsUp_of_endless (endless : setting.Endless method name) :
    ∃ upper, setting.LeadsUp method name upper ∧ setting.Endless method upper := by
  rcases ends_or_passes setting method name with ⟨visited, ending, search⟩ | ⟨next, passes⟩
  · exact absurd search (endless visited ending)
  · cases next with
    | none => exact absurd (.up passes .root) (endless _ _)
    | some upper => exact ⟨upper, passes, fun _ _ further => endless _ _ (.up passes further)⟩

/-- An endless search exhausts every bound. -/
private theorem Endless.resolveFrom_eq (endless : setting.Endless method name) (bound : Nat)
    (run : Run) : resolveFrom setting method bound (some name) run = .error .exhausted run := by
  induction bound generalizing name with
  | zero => rfl
  | succ bound ih =>
      obtain ⟨upper, passes, further⟩ := exists_leadsUp_of_endless endless
      rw [resolveFrom_passes passes]
      exact ih further

/-- An endless search comes back to a class, since there are only so many that it can pass. -/
theorem Endless.circles (endless : setting.Endless method name) : setting.Circles method name := by
  -- The induction is on the number of analysed classes that have not been passed yet.
  suffices forward : ∀ (left : Nat) (name : String) (passed : List String),
      setting.Endless method name → passed.Nodup → passed ⊆ setting.analyzed →
      (∀ lower ∈ passed, Relation.TransGen (setting.LeadsUp method) lower name) →
      setting.analyzed.length < passed.length + left → setting.Circles method name from
    forward (setting.analyzed.length + 1) name [] endless List.nodup_nil (List.nil_subset _)
      (fun _ member => absurd member List.not_mem_nil) (by simp)
  intro left
  induction left with
  | zero =>
      intro name passed _ distinct analyzed _ enough
      exact absurd (List.subperm_of_subset distinct analyzed).length_le (Nat.not_le_of_lt enough)
  | succ left ih =>
      intro name passed endless distinct analyzed below enough
      obtain ⟨upper, passes, further⟩ := exists_leadsUp_of_endless endless
      by_cases again : name ∈ passed
      · exact ⟨name, .refl, below name again⟩
      · obtain ⟨other, chain, circle⟩ :=
          ih upper (name :: passed) further (List.nodup_cons.mpr ⟨again, distinct⟩)
            (List.cons_subset.mpr ⟨passes.analyzed, analyzed⟩)
            (List.forall_mem_cons.mpr
            ⟨.single passes, fun lower member => (below lower member).tail passes⟩)
            (by rw [List.length_cons]; omega)
        exact ⟨other, .head passes chain, circle⟩

/-- A search that comes back to a class never ends. -/
private theorem Circles.endless (circles : setting.Circles method name) :
    setting.Endless method name := by
  intro visited ending search
  obtain ⟨other, chain, circle⟩ := circles
  rcases Relation.reflTransGen_iff_eq_or_transGen.mp chain with rfl | chain
  · exact search.not_circular circle
  · obtain ⟨rest, -, further⟩ := search.shorter chain
    exact further.not_circular circle

/-- A search ends exactly if it does not come to a class that is among its own superclasses. It has
then looked at different analysed classes, and the bound makes no difference. Otherwise no bound is
large enough. -/
theorem resolve_ends_iff (setting : Setting) (method : MethodKey) :
    (¬setting.Circles method method.className ↔
      ∃ visited ending, setting.Searches method (some method.className) visited ending ∧
        visited.Nodup ∧ visited ⊆ setting.analyzed ∧ visited.length ≤ setting.analyzed.length ∧
        resolve setting method = ending.answer setting method) ∧
    (setting.Circles method method.className ↔
      ∀ bound run, resolveFrom setting method bound (some method.className) run =
        .error .exhausted run) := by
  refine ⟨⟨fun straight => ?_, ?_⟩, fun circles => circles.endless.resolveFrom_eq,
    fun exhausted => ?_⟩
  · by_contra none
    apply straight
    apply Endless.circles
    intro visited ending search
    exact none ⟨visited, ending, search, search.nodup, search.subset_analyzed, search.length_le,
      search.resolveFrom_eq (Nat.lt_succ_of_le search.length_le)⟩
  · rintro ⟨visited, ending, search, -⟩ circles
    exact circles.endless visited ending search
  · apply Endless.circles
    intro visited ending search
    have ends := congrFun (search.resolveFrom_eq (Nat.lt_succ_self _)) default
    rw [exhausted] at ends
    exact ending.answer_ne_exhausted setting method _ _ ends.symm

end Setting

/-- A class that takes over a method from its superclass, which has a body for it. -/
def squareAndShape : List ClassDef :=
  [{ name := "demo/Square", superName := some "demo/Shape" },
    { name := "demo/Shape"
      methods :=
        [{ name := "sides", descriptor := "()V", access := ⟨1⟩, instructions := #[.ret none] }] }]

def shapes : Setting :=
  { repository := Repository.addAll {} squareAndShape, analyzed := ["demo/Shape", "demo/Square"] }

/-- The search passes the class and ends at its superclass. -/
theorem shapes_straight : ¬shapes.Circles ⟨"demo/Square", "sides", "()V"⟩ "demo/Square" := by
  have square : shapes.repository.lookup? "demo/Square" = some squareAndShape[0] :=
    Repository.lookup?_addAll _ _ _
  have shape : shapes.repository.lookup? "demo/Shape" = some squareAndShape[1] :=
    Repository.lookup?_addAll _ _ _
  have passes : shapes.Passes ⟨"demo/Square", "sides", "()V"⟩ "demo/Square" (some "demo/Shape") :=
    ⟨by decide, _, square, rfl, fun found has => absurd has.symm (Option.some_ne_none found)⟩
  have search : shapes.Searches ⟨"demo/Square", "sides", "()V"⟩ (some "demo/Square")
      ["demo/Square", "demo/Shape"] _ :=
    .up passes (.found (by decide) shape rfl rfl)
  exact (Setting.resolve_ends_iff shapes ⟨"demo/Square", "sides", "()V"⟩).1.mpr
    ⟨_, _, search, search.nodup, search.subset_analyzed, search.length_le,
      search.resolveFrom_eq (Nat.lt_succ_of_le search.length_le)⟩

/-- A class with itself for its superclass. -/
def selfExtending : Load :=
  .json "" "[\x7b\"name\":\"demo/Loop\",\"super_name\":\"demo/Loop\"\x7d]"

/-- A class that has itself for its superclass can be loaded, and the search for a method that it
does not have never ends. -/
theorem selfExtending_endless :
    (Loader.perform {} [selfExtending]).1.map Except.toOption = [some ["demo/Loop"]] ∧
    ∀ bound run, resolveFrom { repository := (Loader.perform {} [selfExtending]).2.repository,
                               analyzed := ["demo/Loop"] }
      ⟨"demo/Loop", "missing", "()V"⟩ bound (some "demo/Loop") run = .error .exhausted run := by
  have classes :
      selfExtending.classes? = some [{ name := "demo/Loop", superName := some "demo/Loop" }] := by
    decide +kernel
  obtain ⟨answers, repository⟩ := Loader.perform_eq {} [selfExtending]
  have stored : (Loader.perform {} [selfExtending]).2.repository.lookup? "demo/Loop" =
      some { name := "demo/Loop", superName := some "demo/Loop" } := by
    rw [repository, Loader.loaded, List.filterMap_cons_some classes, Repository.lookup?_addAll]
    rfl
  refine ⟨?_, ?_⟩
  · rw [answers, List.map_singleton, classes]
    rfl
  · intro bound run
    apply Setting.Endless.resolveFrom_eq
    apply Setting.Circles.endless
    refine ⟨"demo/Loop", .refl, .single ?_⟩
    exact ⟨List.mem_singleton_self _, _, stored, rfl,
      fun found has => absurd has.symm (Option.some_ne_none found)⟩

end ArrayBounds
