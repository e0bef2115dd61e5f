import ArrayBounds.Loader.Basic
import ArrayBounds.Proofs.Program.LineMarks
import ArrayBounds.Proofs.Program.Lowering

/-! # Loading is all or nothing

A load either adds all its classes or fails and adds none (`ArrayBounds.Load.settles`). So after any
sequence of loads, failing ones among them, the repository holds under each name the last class of
that name, and all classes in it are well formed (`ArrayBounds.Loader.performs_atomically`): jumps
lead to instructions, and line marks are in order.
-/

namespace ArrayBounds

open Program

/-! ## Well-formed classes -/

namespace Program

/-- Every jump of the method leads to one of its instructions. -/
def Method.jumpsWithin (method : Method) : Bool :=
  method.instructions.all fun instruction => instruction.targets.all (· < method.instructions.size)

/-- The check of a method looks at all targets of all instructions. -/
theorem Method.jumpsWithin_iff {method : Method} :
    method.jumpsWithin = true ↔
      ∀ instruction ∈ method.instructions, ∀ target ∈ instruction.targets,
        target < method.instructions.size := by
  simp only [jumpsWithin, Array.all_eq_true', List.all_eq_true, decide_eq_true_eq]

/-- All jumps lead to instructions of the method, and its line marks are in order. -/
structure Method.WellFormed (method : Method) : Prop where
  jumps : ∀ instruction ∈ method.instructions, ∀ target ∈ instruction.targets,
    target < method.instructions.size
  lines : LineMark.Ascending method.lines.toList

/-- All methods of the class are well-formed. -/
def ClassDef.WellFormed (c : ClassDef) : Prop :=
  ∀ method ∈ c.methods, method.WellFormed

/-! ### Lowered classes -/

/-- The methods that class files give are well-formed. -/
private theorem Method.wellFormed_of_lowered {pool : ClassFile.ConstantPool}
    {source : ClassFile.Method} {method : Method}
    (success : Method.ofClassFile pool source = .ok method) : method.WellFormed := by
  cases body : source.code with
  | none =>
      unfold ofClassFile at success
      rw [body] at success
      obtain rfl := Except.pure_eq_ok_iff.mp success
      exact ⟨by simp, .nil⟩
  | some code =>
      obtain ⟨placed, instructions, decodes, reached, resolved, rfl⟩ :=
        (ofClassFile_eq_ok_iff body).mp success
      have laidOut := decodes.laidOut reached resolved
      refine ⟨fun instruction member => ?_, ascending_lineMarks _ _⟩
      obtain ⟨position, below, rfl⟩ := Array.getElem_of_mem member
      obtain ⟨_, -, within, -⟩ := laidOut.spelled position below
      exact within

/-- Every method of a class comes from its class file. -/
private theorem exists_source_of_lowered {pool : ClassFile.ConstantPool}
    {sources : List ClassFile.Method} {methods : List Method}
    (success : (lowerMethods pool sources).1 = .ok methods) {method : Method}
    (member : method ∈ methods) : ∃ source, Method.ofClassFile pool source = .ok method := by
  induction sources generalizing methods with
  | nil =>
      obtain rfl := Except.ok.inj success
      exact absurd member List.not_mem_nil
  | cons source sources ih =>
      rw [lowerMethods] at success
      cases first : Method.ofClassFile pool source with
      | error error =>
          rw [first] at success
          cases success
      | ok lowered =>
          rw [first] at success
          cases others : (lowerMethods pool sources).1 with
          | error error =>
              simp only [others] at success
              cases success
          | ok rest =>
              simp only [others] at success
              obtain rfl : lowered :: rest = methods := Except.ok.inj success
              rcases List.mem_cons.mp member with rfl | member
              · exact ⟨source, first⟩
              · exact ih others member

/-- The classes that class files give are well-formed. -/
private theorem ClassDef.wellFormed_of_lowered {file : ClassFile} {c : ClassDef}
    (success : (ofClassFile file).1 = .ok c) : c.WellFormed := by
  unfold ofClassFile at success
  cases lowered : (lowerMethods file.pool file.methods).1 with
  | error error =>
      simp only [lowered] at success
      cases success
  | ok methods =>
      simp only [lowered] at success
      obtain rfl := Except.ok.inj success
      intro method member
      obtain ⟨source, found⟩ := exists_source_of_lowered lowered member
      exact Method.wellFormed_of_lowered found

/-! ### Classes that are given as such -/

/-- A class with the line marks of its methods in order. -/
def ClassDef.sortLines (c : ClassDef) : ClassDef :=
  { c with methods := c.methods.map Loading.sortLines }

/-- Every jump in the class leads to an instruction. -/
def ClassDef.jumpsWithin (c : ClassDef) : Bool :=
  c.methods.all Method.jumpsWithin

/-- A class whose jumps stay within its methods is well-formed once its lines are sorted. -/
private theorem ClassDef.wellFormed_sortLines {c : ClassDef} (within : c.jumpsWithin = true) :
    c.sortLines.WellFormed := by
  intro method member
  obtain ⟨source, here, rfl⟩ := List.mem_map.mp member
  refine ⟨Method.jumpsWithin_iff.mp (List.all_eq_true.mp within source here), ?_⟩
  exact LineMark.ascending_mergeSort _

/-- No invalid target is found if all jumps stay within the method. -/
private theorem invalidTarget?_eq_none_iff {method : Method} :
    Loading.invalidTarget? method = none ↔ method.jumpsWithin = true := by
  unfold Loading.invalidTarget?
  simp only [List.findSome?_eq_none_iff, Option.map_eq_none_iff, List.find?_eq_none,
    decide_eq_true_eq, Nat.not_le, Prod.forall, Method.jumpsWithin_iff,
    List.mem_zipIdx_iff_getElem?]
  constructor
  · intro within instruction member
    obtain ⟨position, found⟩ := List.mem_iff_getElem?.mp (Array.mem_toList_iff.mpr member)
    exact within instruction position found
  · intro within instruction position found
    exact within instruction (Array.mem_toList_iff.mp (List.mem_of_getElem? found))

end Program

/-! ## Repositories -/

namespace Repository

variable {repository : Repository} {classes : List ClassDef}

private theorem lookup?_add (repository : Repository) (c : ClassDef) (name : String) :
    (repository.add c).lookup? name = if c.name = name then some c
      else repository.lookup? name := by
  simp only [add, lookup?, Std.ExtTreeMap.getElem?_insert, Std.LawfulEqCmp.compare_eq_iff_eq]

/-- Among classes that are added, the last one of a name is found under it. -/
theorem lookup?_addAll (repository : Repository) (classes : List ClassDef) (name : String) :
    (repository.addAll classes).lookup? name =
      (classes.filter (·.name == name)).getLast?.or (repository.lookup? name) := by
  unfold addAll
  induction classes generalizing repository with
  | nil => rfl
  | cons c classes ih =>
      rw [List.foldl_cons, ih, lookup?_add, List.filter_cons]
      by_cases same : c.name = name
      · rw [if_pos same, if_pos (beq_iff_eq.mpr same), List.getLast?_cons]
        cases (classes.filter (·.name == name)).getLast? <;> rfl
      · rw [if_neg same, if_neg (mt beq_iff_eq.mp same)]

private theorem addAll_append (repository : Repository) (first second : List ClassDef) :
    repository.addAll (first ++ second) = (repository.addAll first).addAll second :=
  List.foldl_append

end Repository

/-! ## Steps of loading -/

namespace Loading

variable {α β : Type}

/-- A class is added to the repository; the rest goes to the log. -/
private theorem addClass_eq (c : ClassDef) (loader : Loader) :
    ∃ log, addClass c loader = .ok () { repository := loader.repository.add c, log } := by
  have opened : addClass c loader = (do
      if loader.repository.contains c.name then record [.classReplaced c.name]
      modify fun loader => { loader with repository := loader.repository.add c } : Loading Unit)
        loader := rfl
  rw [opened]
  split
  · exact ⟨_, rfl⟩
  · exact ⟨_, rfl⟩

/-- Classes are added one after the other. -/
private theorem addClasses_eq (f : ClassDef → ClassDef) (classes : List ClassDef)
    (loader : Loader) :
    ∃ log, classes.forM (fun c => addClass (f c)) loader =
      .ok () { repository := loader.repository.addAll (classes.map f), log } := by
  induction classes generalizing loader with
  | nil => exact ⟨loader.log, rfl⟩
  | cons c classes ih =>
      obtain ⟨log, added⟩ := addClass_eq (f c) loader
      obtain ⟨log', others⟩ := ih { repository := loader.repository.add (f c), log }
      exact ⟨log', (EStateM.bind_of_ok added).trans others⟩

/-- Jumps that stay within their methods pass the check. -/
private theorem checkTargets_of_within {c : ClassDef} (within : c.jumpsWithin = true)
    (loader : Loader) : checkTargets c loader = .ok () loader := by
  have valid : c.methods.findSome? invalidTarget? = none :=
    List.findSome?_eq_none_iff.mpr fun method member =>
      invalidTarget?_eq_none_iff.mpr (List.all_eq_true.mp within method member)
  unfold checkTargets
  rw [valid]
  rfl

/-- A jump that leaves its method fails the check, and nothing has been loaded. -/
private theorem checkTargets_of_not_within {c : ClassDef} (outside : c.jumpsWithin = false)
    (loader : Loader) : ∃ error, checkTargets c loader = .error error loader := by
  unfold checkTargets
  cases found : c.methods.findSome? invalidTarget? with
  | none =>
      have within : c.jumpsWithin = true := List.all_eq_true.mpr fun method member =>
        invalidTarget?_eq_none_iff.mp (List.findSome?_eq_none_iff.mp found method member)
      exact absurd (outside.symm.trans within) Bool.false_ne_true
  | some jump => exact ⟨_, rfl⟩

/-- The check of several classes changes nothing, whether it succeeds or fails. -/
theorem checkAll_eq (classes : List ClassDef) (loader : Loader) :
    classes.all ClassDef.jumpsWithin = true ∧ classes.forM checkTargets loader = .ok () loader ∨
      classes.all ClassDef.jumpsWithin = false ∧
      ∃ error, classes.forM checkTargets loader = .error error loader := by
  induction classes with
  | nil => exact .inl ⟨rfl, rfl⟩
  | cons c classes ih =>
      rw [List.all_cons]
      cases here : c.jumpsWithin with
      | false =>
          obtain ⟨error, failure⟩ := checkTargets_of_not_within here loader
          exact .inr ⟨rfl, error, EStateM.bind_of_error failure⟩
      | true =>
          have first : (c :: classes).forM checkTargets loader = classes.forM checkTargets loader :=
            EStateM.bind_of_ok (checkTargets_of_within here loader)
          rw [first, Bool.true_and]
          exact ih

end Loading

/-! ## Loads -/

/-- A request to load classes, with the path where they were found. -/
inductive Load where
  | classFile (path : String) (bytes : List UInt8)
  | json (path : String) (text : String)

namespace Load

/-- Carries out a load, and returns the names of the classes. -/
def run : Load → Loading (List String)
  | classFile path bytes => do return [← Loading.loadClassBytes path bytes]
  | json path text => Loading.loadJsonText path text

/-- The classes that a load consists of, if it is in order: the lowered class of a class file, or
the classes that a text spells, provided that all their jumps lead to instructions. -/
def classes? : Load → Option (List ClassDef)
  | classFile _ bytes =>
    match ClassFile.parse bytes with
    | .error _ => none
    | .ok file =>
      match (ClassDef.ofClassFile file).1 with
      | .error _ => none
      | .ok c => some [c]
  | json _ text =>
    match (Json.parse? text).bind ClassDef.listOfJson? with
    | none => none
    | some classes =>
      if classes.all ClassDef.jumpsWithin then some (classes.map ClassDef.sortLines) else none

/-- The load adds all its classes and returns their names, or it fails and adds none. -/
def Settles (load : Load) (loader : Loader) : Prop :=
  (∃ classes log, load.classes? = some classes ∧
    load.run loader = .ok (classes.map (·.name))
    { repository := loader.repository.addAll classes, log }) ∨
  ∃ error log, load.classes? = none ∧
    load.run loader = .error error { repository := loader.repository, log }

/-- A class file is added as a whole or not at all. -/
private theorem classFile_settles (path : String) (bytes : List UInt8) (loader : Loader) :
    (classFile path bytes).Settles loader := by
  unfold Settles classes? run
  dsimp only
  cases parsed : ClassFile.parse bytes with
  | error error =>
      have failure : Loading.loadClassBytes path bytes loader =
          .error (.classFile path error) loader := by
        rw [Loading.loadClassBytes, parsed]
        rfl
      exact .inr ⟨_, _, rfl, EStateM.bind_of_error failure⟩
  | ok file =>
      dsimp only
      cases lowered : ClassDef.ofClassFile file with
      | mk result events =>
          cases result with
          | error error =>
              have failure : Loading.loadClassBytes path bytes loader =
                  .error (.lowering file.name error)
                  { loader with log := loader.log.appendList events } := by
                rw [Loading.loadClassBytes, parsed]
                dsimp only
                rw [lowered]
                rfl
              exact .inr ⟨_, _, rfl, EStateM.bind_of_error failure⟩
          | ok c =>
              obtain ⟨log, added⟩ :=
                Loading.addClass_eq c { loader with log := loader.log.appendList events }
              have success : Loading.loadClassBytes path bytes loader =
                  .ok c.name { repository := loader.repository.add c, log } := by
                rw [Loading.loadClassBytes, parsed]
                dsimp only
                rw [lowered]
                exact EStateM.bind_of_ok added
              exact .inl ⟨[c], log, rfl, EStateM.bind_of_ok success⟩

/-- A JSON text is loaded as a whole or not at all. -/
theorem json_settles (path text : String) (loader : Loader) : (json path text).Settles loader := by
  unfold Settles classes? run Loading.loadJsonText Loading.loadJson
  dsimp only
  cases read : (Json.parse? text).bind ClassDef.listOfJson? with
  | none => exact .inr ⟨_, _, rfl, rfl⟩
  | some classes =>
      dsimp only
      have names : (classes.map ClassDef.sortLines).map (·.name) = classes.map (·.name) := by
        rw [List.map_map]
        rfl
      rcases Loading.checkAll_eq classes loader with ⟨within, checked⟩ | ⟨outside, error, failure⟩
      · obtain ⟨log, added⟩ := Loading.addClasses_eq ClassDef.sortLines classes loader
        refine .inl ⟨classes.map ClassDef.sortLines, log, if_pos within, ?_⟩
        rw [names, Loading.loadClasses, EStateM.bind_of_ok checked]
        exact EStateM.bind_of_ok added
      · refine .inr ⟨error, loader.log, if_neg (by rw [outside]; exact Bool.false_ne_true), ?_⟩
        rw [Loading.loadClasses]
        exact EStateM.bind_of_error failure

/-- Every load adds its classes as a whole or not at all. -/
theorem settles (load : Load) (loader : Loader) : load.Settles loader := by
  cases load with
  | classFile path bytes => exact classFile_settles path bytes loader
  | json path text => exact json_settles path text loader

/-- All classes that loading gives are well-formed. -/
private theorem wellFormed_of_classes? {load : Load} {classes : List ClassDef}
    (inOrder : load.classes? = some classes) : ∀ c ∈ classes, c.WellFormed := by
  unfold classes? at inOrder
  cases load with
  | classFile path bytes =>
      dsimp only at inOrder
      cases parsed : ClassFile.parse bytes with
      | error error => simp [parsed] at inOrder
      | ok file =>
          cases lowered : (ClassDef.ofClassFile file).1 with
          | error error => simp [parsed, lowered] at inOrder
          | ok c =>
              obtain rfl : [c] = classes := by simpa [parsed, lowered] using inOrder
              rw [List.forall_mem_singleton]
              exact ClassDef.wellFormed_of_lowered lowered
  | json path text =>
      dsimp only at inOrder
      cases read : (Json.parse? text).bind ClassDef.listOfJson? with
      | none => simp [read] at inOrder
      | some found =>
          rw [read] at inOrder
          obtain ⟨within, same⟩ := Option.ite_none_right_eq_some.mp inOrder
          obtain rfl := Option.some.inj same
          rw [List.forall_mem_map]
          exact fun c member => ClassDef.wellFormed_sortLines (List.all_eq_true.mp within c member)

end Load

/-! ## Sequences of loads -/

namespace Loader

/-- Carries out loads one after the other, and collects the answers. A load that fails does not keep
the others from being carried out. -/
def perform (loader : Loader) : List Load → List (Except LoadError (List String)) × Loader
  | [] => ([], loader)
  | load :: rest =>
    match load.run loader with
    | .ok names next =>
      let (answers, last) := next.perform rest
      (.ok names :: answers, last)
    | .error error next =>
      let (answers, last) := next.perform rest
      (.error error :: answers, last)

/-- The classes of those loads that are in order, one load behind the other. -/
def loaded (loads : List Load) : List ClassDef :=
  (loads.filterMap Load.classes?).flatten

/-- Loads answer with the names of their classes, and exactly the classes of those in order are
added. -/
theorem perform_eq (loader : Loader) (loads : List Load) :
    (loader.perform loads).1.map Except.toOption =
      loads.map (fun load => load.classes?.map (List.map (·.name))) ∧
      (loader.perform loads).2.repository = loader.repository.addAll (loaded loads) := by
  induction loads generalizing loader with
  | nil => exact ⟨rfl, rfl⟩
  | cons load loads ih =>
      unfold perform loaded
      rcases load.settles loader
        with ⟨classes, log, inOrder, success⟩ | ⟨error, log, broken, failure⟩
      · obtain ⟨answers, repository⟩ := ih { repository := loader.repository.addAll classes, log }
        rw [success, List.filterMap_cons_some inOrder, List.flatten_cons, Repository.addAll_append,
          List.map_cons, List.map_cons, inOrder]
        exact ⟨congrArg _ answers, repository⟩
      · obtain ⟨answers, repository⟩ := ih { repository := loader.repository, log }
        rw [failure, List.filterMap_cons_none broken, List.map_cons, List.map_cons, broken]
        exact ⟨congrArg _ answers, repository⟩

private theorem wellFormed_of_loaded {loads : List Load} {c : ClassDef}
    (member : c ∈ loaded loads) : c.WellFormed := by
  obtain ⟨classes, here, member⟩ := List.mem_flatten.mp member
  obtain ⟨load, -, inOrder⟩ := List.mem_filterMap.mp here
  exact Load.wellFormed_of_classes? inOrder c member

/-- A load that fails leaves the repository as it is. After a sequence of loads, the successful ones
have returned the names of their classes in order. The repository holds the last class of each name
among the classes of the successful loads, and nothing else. Every jump in them leads to an
instruction, and the line of an instruction is that of the last mark at or before it. -/
theorem performs_atomically (loads : List Load) :
    (∀ (load : Load) (loader next : Loader) (error : LoadError),
      load.run loader = .error error next → next.repository = loader.repository) ∧
    (perform {} loads).1.map Except.toOption =
      loads.map (fun load => load.classes?.map (List.map (·.name))) ∧
    (∀ name, (perform {} loads).2.repository.lookup? name =
      ((loaded loads).filter (·.name == name)).getLast?) ∧
    ∀ name c, (perform {} loads).2.repository.lookup? name = some c → ∀ method ∈ c.methods,
      (∀ instruction ∈ method.instructions, ∀ target ∈ instruction.targets,
        target < method.instructions.size) ∧
      method.lines.toList.Pairwise (·.index ≤ ·.index) ∧
      ∀ index, method.lineAt index =
        ((method.lines.toList.filter (·.index ≤ index)).getLast?).map (·.line) := by
  obtain ⟨answers, repository⟩ := perform_eq {} loads
  have found (name : String) :
      (perform {} loads).2.repository.lookup? name =
        ((loaded loads).filter (·.name == name)).getLast? := by
    rw [repository, Repository.lookup?_addAll]
    exact Option.or_none
  refine ⟨fun load loader next error failure => ?_, answers, found,
    fun name c stored method member => ?_⟩
  · rcases load.settles loader with ⟨classes, log, -, success⟩ | ⟨error', log, -, failure'⟩
    · cases success.symm.trans failure
    · cases failure'.symm.trans failure
      rfl
  · rw [found] at stored
    have here : c ∈ loaded loads := List.mem_of_mem_filter (List.mem_of_getLast? stored)
    obtain ⟨jumps, lines⟩ := wellFormed_of_loaded here method member
    exact ⟨jumps, lines, method.lineAt_eq lines⟩

end Loader

/-- A class whose line marks are given in the wrong order. -/
def loopText : String :=
  "[[\"Loop\",null,null,[[\"run\",\"()V\",8,[\x7b\"goto\":[1]\x7d,\x7b\"goto\":[0]\x7d]," ++
    "[[1,7],[0,3]]]]]]"

/-- The class with its marks in the wrong order, a class file that breaks off, and two classes of
which the second one has a jump that leads nowhere. -/
def faultyLoads : List Load :=
  [.json "loop.json" loopText, .classFile "Cut.class" [0xCA, 0xFE],
    .json "pair.json"
      "[[\"Loop\"],[\"Lost\",null,null,[[\"run\",\"()V\",8,[\x7b\"goto\":[1]\x7d]]]]]"]

def loopMethod : Method :=
  { name := "run", descriptor := "()V", access := ⟨8⟩, instructions := #[.goto 1, .goto 0],
    lines := #[⟨0, 3⟩, ⟨1, 7⟩] }

/-- Of the three loads only the first gives a class. -/
private theorem classes?_faultyLoads :
    faultyLoads.map Load.classes? =
      [some [{ name := "Loop", methods := [loopMethod] }], none, none] := by
  have given : (Json.parse? loopText).bind ClassDef.listOfJson? =
      some [{ name := "Loop", methods := [{ loopMethod with lines := #[⟨1, 7⟩, ⟨0, 3⟩] }] }] := by
    decide +kernel
  have others : faultyLoads.tail.map Load.classes? = [none, none] := by decide +kernel
  have marks : [⟨1, 7⟩, ⟨0, 3⟩].mergeSort LineMark.le = [⟨0, 3⟩, ⟨1, 7⟩] := by
    simp [List.mergeSort, LineMark.le]
  have sorted : Loading.sortLines { loopMethod with lines := #[⟨1, 7⟩, ⟨0, 3⟩] } = loopMethod := by
    rw [Loading.sortLines, marks, loopMethod]
  refine congrArg₂ List.cons ?_ others
  rw [Load.classes?, given]
  dsimp only
  rw [if_pos (by decide +kernel), List.map_singleton, ClassDef.sortLines,
    List.map_singleton, sorted]

/-- The first load stays in place when the others fail. -/
theorem faultyLoads_atomic :
    (Loader.perform {} faultyLoads).1.map Except.toOption = [some ["Loop"], none, none] ∧
      (Loader.perform {} faultyLoads).2.repository.lookup? "Loop" =
        some { name := "Loop", methods := [loopMethod] } ∧
      (Loader.perform {} faultyLoads).2.repository.lookup? "Lost" = none ∧
      loopMethod.lineAt 1 = some 7 := by
  have loaded : Loader.loaded faultyLoads = [{ name := "Loop", methods := [loopMethod] }] := by
    rw [Loader.loaded, ← Function.id_comp Load.classes?, ← List.filterMap_map, classes?_faultyLoads]
    rfl
  obtain ⟨-, answers, found, wellFormed⟩ := Loader.performs_atomically faultyLoads
  rw [loaded] at found
  have stored := found "Loop"
  refine ⟨?_, stored, found "Lost", ?_⟩
  · have names := congrArg (List.map (Option.map (List.map ClassDef.name))) classes?_faultyLoads
    rw [List.map_map] at names
    exact answers.trans names
  · rw [(wellFormed "Loop" _ stored loopMethod List.mem_cons_self).2.2 1]
    rfl

end ArrayBounds
