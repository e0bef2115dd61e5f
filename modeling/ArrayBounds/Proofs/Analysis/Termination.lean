import ArrayBounds.Proofs.Analysis.Nesting

/-! # An analysis comes to an end

Every recursion of the analysis carries a bound: the walk through a method, the chain of calls, and
the search for a method among superclasses. None of these bounds is ever met, if no class is among
its own superclasses (`ArrayBounds.Setting.analysis_terminates`).

- A walk goes on behind its first instruction, or through an arm or a loop whose range is smaller,
  if ranges are compared by their ends first and by their lengths next.
- A method is analysed within the analysis of another one only if it is not in progress yet. The
  methods in progress are all declared, so there are no more of them than declarations.
- The classes that a search has passed are analysed and all different.
-/

namespace ArrayBounds

open Program Interpreter

/-! ## Superclasses -/

namespace Repository

/-- The class with the first name has the second name for its superclass. -/
def Extends (repository : Repository) (name superName : String) : Prop :=
  ∃ c, repository.lookup? name = some c ∧ c.superName = some superName

/-- No class is among its own superclasses. -/
def Acyclic (repository : Repository) : Prop :=
  ∀ name, ¬Relation.TransGen repository.Extends name name

/-- Classes that can be ranked above their superclasses are not among them. -/
theorem acyclic_of_rank {repository : Repository} (rank : String → Nat)
    (falls : ∀ name superName, repository.Extends name superName → rank superName < rank name) :
    repository.Acyclic := by
  have descends {name other : String} (chain : Relation.TransGen repository.Extends name other) :
      rank other < rank name := by
    induction chain with
    | single first => exact falls _ _ first
    | tail _ last ih => exact Nat.lt_trans (falls _ _ last) ih
  exact fun name chain => Nat.lt_irrefl _ (descends chain)

/-- A look-up needs no fuel. -/
private theorem lookupAll_ne_exhausted (repository : Repository) (names : List String) :
    repository.lookupAll names ≠ .error .exhausted := by
  unfold lookupAll
  induction names with
  | nil => exact nofun
  | cons name names ih =>
      rw [List.mapM_cons]
      refine Frame.bind_ne_exhausted ?_ fun owner => Frame.bind_ne_exhausted ih fun owners => nofun
      split <;> exact nofun

end Repository

namespace Interpreter

variable {setting : Setting}

/-- The classes that a search has passed on its way to the next one. They are analysed, and
different from each other. -/
structure Climbs (setting : Setting) (passed : List String) (next : Option String) : Prop where
  distinct : passed.Nodup
  analyzed : passed ⊆ setting.analyzed
  below : ∀ name ∈ passed, ∀ superName, next = some superName →
    Relation.TransGen setting.repository.Extends name superName

namespace Climbs

variable {passed : List String} {next : Option String} {name : String} {owner : ClassDef}

private theorem start (setting : Setting) (next : Option String) : Climbs setting [] next :=
  ⟨List.nodup_nil, List.nil_subset _, fun _ member => absurd member List.not_mem_nil⟩

private theorem length_le (climbs : Climbs setting passed next) :
    passed.length ≤ setting.analyzed.length :=
  (List.subperm_of_subset climbs.distinct climbs.analyzed).length_le

/-- The next class has not been passed before, since it would be among its own superclasses. -/
theorem further (acyclic : setting.repository.Acyclic) (climbs : Climbs setting passed (some name))
    (analyzed : name ∈ setting.analyzed) (stored : setting.repository.lookup? name = some owner) :
    Climbs setting (name :: passed) owner.superName := by
  have fresh : name ∉ passed := fun member => acyclic name (climbs.below name member name rfl)
  refine ⟨List.nodup_cons.mpr ⟨fresh, climbs.distinct⟩,
    List.cons_subset.mpr ⟨analyzed, climbs.analyzed⟩, ?_⟩
  intro other member superName above
  have extending : setting.repository.Extends name superName := ⟨owner, stored, above⟩
  rcases List.mem_cons.mp member with rfl | member
  · exact .single extending
  · exact (climbs.below other member name rfl).tail extending

end Climbs

/-- A search that has passed so many classes has enough steps left. -/
theorem keeps_resolveFrom (acyclic : setting.repository.Acyclic) (method : MethodKey) {bound : Nat}
    {next : Option String} {passed : List String} (climbs : Climbs setting passed next)
    (enough : setting.analyzed.length < passed.length + bound) :
    Analysis.Keeps (fun _ => True) (· ≠ .exhausted) (resolveFrom setting method bound next)
      fun _ => True := by
  induction bound generalizing next passed with
  | zero => exact absurd climbs.length_le (Nat.not_le_of_lt enough)
  | succ bound ih =>
      cases next with
      | none => exact .throw nofun
      | some name =>
          have ends {event : Event} : Analysis.Keeps (fun _ => True) (· ≠ .exhausted)
              (Analysis.emit setting event >>= fun _ => pure (none : Option Body)) fun _ => True :=
            .bind (.emit fun _ _ _ => trivial) fun _ _ => .pure trivial
          rw [resolveFrom]
          split
          case isTrue => exact ends
          case isFalse known =>
            have analyzed : name ∈ setting.analyzed := by simpa [Setting.isAnalyzed] using known
            cases stored : setting.repository.lookup? name with
            | none => exact ends
            | some owner =>
                have above :=
                  ih (climbs.further acyclic analyzed stored) (by rw [List.length_cons]; omega)
                dsimp only
                split
                · split
                  · exact above
                  · exact .pure trivial
                · exact above

private theorem resolve_ne_exhausted (acyclic : setting.repository.Acyclic) {method : MethodKey}
    {before after : Run} {error : AnalysisError}
    (failure : resolve setting method before = .error error after) : error ≠ .exhausted :=
  (keeps_resolveFrom acyclic method (.start setting _) (by simp)).error trivial failure

/-! ## Methods in progress -/

/-- There are no more different methods in progress than methods. -/
theorem size_le_methodCount {repository : Repository} {keys : Std.ExtTreeSet MethodKey}
    (declared : ∀ key ∈ keys, key ∈ repository.keys) : keys.size ≤ repository.methodCount := by
  have distinct : keys.toList.Nodup := by
    refine Std.ExtTreeSet.distinct_toList.imp fun {key other} different same => different ?_
    subst same
    exact Std.ReflCmp.compare_self
  rw [← Std.ExtTreeSet.length_toList, ← repository.length_keys]
  exact (List.subperm_of_subset distinct fun key member =>
    declared key (Std.ExtTreeSet.mem_toList.mp member)).length_le

/-- A pass over a method adds it to the methods in progress, and takes it out again. -/
theorem brackets_inProgress (key : MethodKey) (keys : Std.ExtTreeSet MethodKey) :
    Brackets key (·.inProgress = keys) (·.inProgress = keys.insert key) fun _ => True where
  same holds progress _ := progress.trans holds
  enter holds _ := congrArg (·.insert key) holds
  leave holds fresh there := by
    subst holds
    exact (congrArg (·.erase key) there).trans (erase_insert fresh)
  store holds _ := holds

/-- A method that is in progress is not walked through. -/
theorem brackets_reentered {key : MethodKey} {keys : Std.ExtTreeSet MethodKey}
    (running : keys.contains key = true) :
    Brackets key (·.inProgress = keys) (fun _ => False) fun _ => True where
  same holds progress _ := progress.trans holds
  enter holds fresh := by
    subst holds
    exact Bool.noConfusion (running.symm.trans fresh)
  leave _ _ there := there.elim
  store holds _ := holds

section

variable {E : AnalysisError → Prop} (errors : ∀ error, error ≠ .exhausted → E error)
  (resolved : ∀ {method before error after}, resolve setting method before = .error error after →
    E error)
include errors resolved

/-- Calls leave the methods in progress as they are. -/
private theorem respects_inProgress {callee : Callee} {keys : Std.ExtTreeSet MethodKey}
    (keeps : ∀ target, setting.Declares target →
      Analysis.Keeps (·.inProgress = keys) E (callee target) fun _ => True) :
    Respects setting callee (·.inProgress = keys) E fun _ => True where
  same holds progress _ := progress.trans holds
  stored _ _ := trivial
  errors
  resolved
  called declared holds _ := called_of_keeps (keeps _ declared) holds

/-- The analysis of a method leaves the methods in progress as they are. It does not run out of
depth, if together with the depth there are more methods in progress than declared ones. -/
theorem keeps_inProgress {depth : Nat} {keys : Std.ExtTreeSet MethodKey}
    (enough : E .exhausted ∨ (∀ key ∈ keys, key ∈ setting.repository.keys) ∧
      setting.repository.methodCount < depth + keys.size) {target : Body}
    (declared : target.key ∈ setting.repository.keys) :
    Analysis.Keeps (·.inProgress = keys) E (analyzeMethod setting depth target) fun _ => True := by
  induction depth generalizing keys target with
  | zero =>
      obtain allowed | ⟨known, more⟩ := enough
      · exact .throw allowed
      · have fewer := size_le_methodCount known
        omega
  | succ depth ih =>
      -- A method that is in progress already does not make the set of methods in progress larger,
      -- but it makes no calls either.
      by_cases running : keys.contains target.key = true
      case pos =>
        refine keeps_analyzeMethod results_true (brackets_reentered running) ?_
        exact
          { same := fun holds _ _ => holds
            stored := fun _ _ => trivial
            errors
            resolved
            called := fun _ holds => holds.elim }
      case neg =>
        have inner : E .exhausted ∨
            (∀ key ∈ keys.insert target.key, key ∈ setting.repository.keys) ∧
            setting.repository.methodCount < depth + (keys.insert target.key).size := by
          refine enough.imp id fun ⟨known, more⟩ => ⟨forall_mem_insert declared known, ?_⟩
          rw [Std.ExtTreeSet.size_insert, if_neg running]
          omega
        exact keeps_analyzeMethod results_true (brackets_inProgress target.key keys)
          (respects_inProgress errors resolved fun _ declared => ih inner declared.key_mem_keys)

end

/-! ## Smaller walks -/

/-- What is left of a stretch at the instructions that its walk comes to one after the other. -/
abbrev Turns (setting : Setting) (body : Body) (callee : Callee) : Stretch → Stretch → Prop :=
  Relation.ReflTransGen (Next setting body callee)

/-- A walk turns to later positions only. -/
private theorem Turns.later {body : Body} {callee : Callee} {s t : Stretch}
    (turns : Turns setting body callee s t) : s.first ≤ t.first ∧ t.last = s.last := by
  induction turns with
  | refl => exact ⟨Nat.le_refl _, rfl⟩
  | tail _ next ih => exact ⟨Nat.le_trans ih.1 (Nat.le_of_lt next.later.1), next.later.2.trans ih.2⟩

/-- The walks that are made in the course of a walk are smaller. -/
structure Shrinks (setting : Setting) (body : Body) (callee : Callee) (s : Stretch) : Prop where
  /-- A walk goes on at a later position of the same range. -/
  onward : ∀ t, Next setting body callee s t → s.first < t.first ∧ t.last = s.last
  /-- A walk through an arm or a loop ends earlier, or it is shorter. -/
  nested : ∀ u t, Turns setting body callee s u → Arm setting body callee u t ∨
    Repeat setting body callee u t →
    Prod.Lex (· < ·) (· < ·) (t.last, (t.last : Int) - t.first) (s.last, (s.last : Int) - s.first)
  /-- A loop ends earlier than the range in which it is found. -/
  loops : ∀ u t, Turns setting body callee s u → Repeat setting body callee u t → t.last < s.last
  /-- An arm that ends in a jump has come to a position behind the start, within the range. -/
  pending : ∀ u t f after target, Turns setting body callee s u → Arm setting body callee u t →
    outcome setting body callee t = .ok f after → f.pendingJump = some target →
    1 ≤ f.pc ∧ f.pc ≤ s.last
  /-- An instruction makes no other walks than these, and no other analyses than those that it calls
  for. -/
  complete : ∀ (otherWalk : Walk) (otherCallee : Callee) instruction,
    Agrees setting body callee s otherWalk →
    (∀ target run, Calls setting body s target run → otherCallee target run = callee target run) →
    body.method.instructions[s.first]? = some instruction → s.first ≤ s.last →
    step setting body otherCallee otherWalk s.last instruction s.entry s.run =
      step setting body callee (walk setting body callee) s.last instruction s.entry s.run

/-- The walks within a walk become smaller and smaller. -/
private theorem shrinks (setting : Setting) (body : Body) (callee : Callee) (s : Stretch) :
    Shrinks setting body callee s where
  onward t next := next.later
  nested u t turns part := by
    have reached := turns.later
    obtain arm | again := part
    · have later := arm.later
      by_cases same : t.last = s.last
      · rw [same]
        exact .right _ (by omega)
      · exact .left _ _ (by omega)
    · have earlier := again.earlier
      exact .left _ _ (by omega)
  loops u t turns again := turns.later.2 ▸ again.earlier.1
  pending u t f after target turns arm walked pending := by
    have reached := turns.later
    have moved := arm.pending walked pending
    omega
  complete otherWalk otherCallee instruction walks calls found reach := by
    rw [step_eq_of_calls calls otherWalk found reach]
    exact step_eq_of_parts walks found reach

private theorem part_wellFounded (setting : Setting) (body : Body) (callee : Callee) :
    WellFounded fun t s => Part setting body callee s t :=
  Subrelation.wf Part.extent_lt
    (measure fun s : Stretch => extent body.method.instructions.size s.first s.last).wf

/-! ## Smaller analyses -/

/-- Calls leave the methods in progress as they are. -/
theorem calls_inProgress (setting : Setting) (depth : Nat) (keys : Std.ExtTreeSet MethodKey) :
    Respects setting (analyzeMethod setting depth) (·.inProgress = keys) (fun _ => True)
      fun _ => True :=
  respects_inProgress (fun _ _ => trivial) (fun _ => trivial) fun _ declared =>
    keeps_inProgress (fun _ _ => trivial) (fun _ => trivial) (.inl trivial) declared.key_mem_keys

/-- A walk through a method starts with the method added to those in progress. -/
theorem Walks.inProgress {depth : Nat} {body : Body} {run : Run} {s : Stretch}
    (walks : Walks setting depth body run s) :
    run.inProgress.contains body.key = false ∧
      s.run.inProgress = run.inProgress.insert body.key := by
  cases walks with
  | @intro depth body run start s starts begins =>
      have brackets := brackets_inProgress body.key run.inProgress
      have once := keeps_analyzeOnce results_true brackets (calls_inProgress setting depth _)
      have started : start.inProgress = run.inProgress :=
        starts.keeps results_true brackets once rfl
      refine ⟨?_, begins.keeps brackets started⟩
      cases begins with
      | intro parsed fresh code announces => exact started ▸ fresh

end Interpreter

namespace Setting

variable {setting : Setting}

/-- Throughout an analysis, methods in progress are methods of the repository. -/
private theorem lasts_declared (setting : Setting) :
    setting.Lasts (fun run => ∀ key ∈ run.inProgress, key ∈ setting.repository.keys)
      fun _ => True where
  start _ member := absurd member Std.ExtTreeSet.not_mem_empty
  same holds progress _ := by
    rw [progress]
    exact holds
  stored _ _ := trivial
  brackets key declared :=
    { same := fun holds progress _ => by
        rw [progress]
        exact holds
      enter := fun holds _ => forall_mem_insert declared holds
      leave := fun _ _ there other member => there other (Std.ExtTreeSet.mem_erase.mp member).2
      store := fun holds _ => holds }

/-- Without cycles of superclasses, an analysis never runs out of fuel. -/
theorem analyze_ne_exhausted (acyclic : setting.repository.Acyclic) :
    setting.analyze.1 ≠ .error .exhausted := by
  have keeps :
      Analysis.Keeps (·.inProgress = ∅) (· ≠ .exhausted) setting.analysis fun _ => True := by
    refine .bind (Q := fun classes => setting.repository.lookupAll setting.analyzed = .ok classes)
      (.lift (fun _ found => found) fun error failure same => ?_) fun classes found => ?_
    · exact setting.repository.lookupAll_ne_exhausted setting.analyzed (same ▸ failure)
    have each : ∀ owner ∈ classes,
        Analysis.Keeps (·.inProgress = ∅) (· ≠ .exhausted)
        (analyzeClass setting owner) fun _ => True := by
      intro owner member
      obtain ⟨name, -, stored⟩ := (Repository.lookupAll_eq_ok found).1 owner member
      refine keeps_analyzeClass (Q := fun _ => True)
        (fun _ _ holds => holds) fun method declared => ?_
      refine keeps_inProgress (fun _ different => different) (resolve_ne_exhausted acyclic)
        (.inr ⟨?_, ?_⟩) (Repository.key_mem_keys stored declared)
      · exact fun _ member => absurd member Std.ExtTreeSet.not_mem_empty
      · exact Nat.lt_succ_self _
    refine .bind (.forM each) fun _ _ => .bind .get fun run _ => ?_
    exact .bind (.emit fun _ _ holds => holds) fun _ _ => .pure trivial
  unfold analyze
  cases done : setting.analysis.run {} with
  | ok outcome run => exact nofun
  | error error run => exact fun same => keeps.error rfl done (Except.error.inj same)

/-- If no class is among its own superclasses, an analysis ends, whatever the classes, methods and
limits are: none of its bounds is met. A walk goes on at later positions, and makes walks through
smaller ranges only. Where a walk calls for the analysis of another method, the walks through that
method have one more declared method in progress. -/
theorem analysis_terminates (setting : Setting) (acyclic : setting.repository.Acyclic) :
    setting.analyze.1 ≠ .error .exhausted ∧
      (∀ body callee, (WellFounded fun t s => Part setting body callee s t) ∧
        ∀ s, Shrinks setting body callee s) ∧
      (∀ depth body run other,
        (∀ start,
          Starts setting body.key (analyzeOnce setting (analyzeMethod setting depth) body)
            run start →
          other start = analyzeOnce setting (analyzeMethod setting depth) body start) →
        stabilise setting body.key other run = analyzeMethod setting (depth + 1) body run) ∧
      ∀ depth body outer s t target inner u, setting.Analyses (depth + 1) body outer →
        Walks setting (depth + 1) body outer s →
        Within setting body (analyzeMethod setting depth) s t →
        Calls setting body t target inner → Walks setting depth target inner u →
        s.run.inProgress.contains target.key = false ∧
          u.run.inProgress = s.run.inProgress.insert target.key ∧
          ∀ key ∈ u.run.inProgress, key ∈ setting.repository.keys := by
  refine ⟨analyze_ne_exhausted acyclic,
    fun body callee => ⟨part_wellFounded setting body callee, shrinks setting body callee⟩,
    fun depth body run other agree => stabilise_eq_of_starts agree, ?_⟩
  intro depth body outer s t target inner u analyses walks within calls nested
  have reached : inner.inProgress = s.run.inProgress :=
    (walks.keeps_calls results_true (brackets_inProgress body.key outer.inProgress)
      (calls_inProgress setting depth _) rfl within calls).2.trans walks.inProgress.2.symm
  obtain ⟨declared, known⟩ :=
    (Analyses.call analyses walks within calls).keeps (lasts_declared setting) results_true
  obtain ⟨fresh, grown⟩ := nested.inProgress
  rw [reached] at fresh grown known
  refine ⟨fresh, grown, ?_⟩
  rw [grown]
  exact forall_mem_insert declared known

end Setting

/-! ## Methods that call each other -/

/-- Calls the other method. -/
def pingMethod : Method :=
  { name := "ping", descriptor := "(I)I", access := ⟨8⟩
    instructions := #[.load .int 0, .invoke .static "demo/Pong" "pong" "(I)I", .ret (some .int)] }

/-- Calls the first method within a loop. It is found in the superclass. -/
def pongMethod : Method :=
  { name := "pong", descriptor := "(I)I", access := ⟨8⟩
    instructions :=
      #[.load .int 0, .branch (.zero .le) 6, .load .int 0,
        .invoke .static "demo/Pong" "ping" "(I)I", .store .int 0, .goto 0, .load .int 0,
        .ret (some .int)] }

def pingBody : Body :=
  { owner := { name := "demo/Ping", superName := some "java/lang/Object", methods := [pingMethod] },
    method := pingMethod }

def pongBody : Body :=
  { owner := { name := "demo/Pong", superName := some "demo/Ping", methods := [pongMethod] },
    method := pongMethod }

def pingSetting : Setting :=
  { repository := ({} : Repository).addAll [pingBody.owner, pongBody.owner],
    analyzed := ["demo/Ping", "demo/Pong"] }

/-- Neither of the two classes is among its own superclasses. -/
private theorem acyclic_ping : pingSetting.repository.Acyclic := by
  refine Repository.acyclic_of_rank
    (fun name => if name = "demo/Pong" then 2 else if name = "demo/Ping" then 1 else 0) ?_
  rintro name superName ⟨c, found, above⟩
  simp only [pingSetting, Repository.addAll, List.foldl_cons, List.foldl_nil, Repository.lookup?,
    Repository.add, Std.ExtTreeMap.getElem?_insert, Std.LawfulEqCmp.compare_eq_iff_eq] at found
  split at found
  case isTrue here =>
    obtain rfl := Option.some.inj found
    obtain rfl : "demo/Ping" = superName := Option.some.inj above
    rw [← here]
    decide
  case isFalse =>
    split at found
    case isTrue here =>
      obtain rfl := Option.some.inj found
      obtain rfl : "java/lang/Object" = superName := Option.some.inj above
      rw [← here]
      decide
    case isFalse => exact absurd found (by simp)

/-- The first method is analysed right at the start, and calls for the analysis of the second
one. -/
theorem ping_calls_pong :
    ∃ s t inner u, pingSetting.Analyses 3 pingBody {} ∧ Walks pingSetting 3 pingBody {} s ∧
      Within pingSetting pingBody (analyzeMethod pingSetting 2) s t ∧
      Calls pingSetting pingBody t pongBody inner ∧ Walks pingSetting 2 pongBody inner u := by
  have context : pingSetting.Analyses (callDepth pingSetting) pingBody {} :=
    @Setting.Analyses.top pingSetting [] [pongBody.owner] pingBody.owner [] [] pingMethod {} {}
      {} rfl rfl rfl rfl rfl rfl
  have parsed : MethodDescriptor.parse "(I)I" = .ok ⟨[.int], some .int⟩ := by cbv
  exact ⟨_, _, _, _, context, .intro .first (.intro parsed rfl rfl rfl), within_of_following? 1 rfl,
    .intro ⟨rfl, by decide, rfl⟩ rfl rfl rfl, .intro .first (.intro parsed rfl rfl rfl)⟩

/-- The analysis of two methods that call each other ends, and within the first one the second one
is added to the methods in progress. -/
theorem ping_terminates :
    pingSetting.repository.Acyclic ∧ pingSetting.analyze.1 ≠ .error .exhausted ∧
      ∃ s t inner u, Walks pingSetting 3 pingBody {} s ∧
        Within pingSetting pingBody (analyzeMethod pingSetting 2) s t ∧
        Calls pingSetting pingBody t pongBody inner ∧ Walks pingSetting 2 pongBody inner u ∧
        s.run.inProgress.contains pongBody.key = false ∧
        u.run.inProgress = s.run.inProgress.insert pongBody.key := by
  obtain ⟨ends, -, -, calls⟩ := pingSetting.analysis_terminates acyclic_ping
  obtain ⟨s, t, inner, u, context, walks, within, calling, nested⟩ := ping_calls_pong
  obtain ⟨fresh, grown, -⟩ :=
    calls 2 pingBody {} s t pongBody inner u context walks within calling nested
  exact ⟨acyclic_ping, ends, s, t, inner, u, walks, within, calling, nested, fresh, grown⟩

end ArrayBounds
