import ArrayBounds.Proofs.Json.RoundTrip
import ArrayBounds.Proofs.Loader.Loads
import ArrayBounds.Proofs.Program.Descriptions
import Mathlib.Data.List.Forall2

/-! # Written classes can be loaded

A list of classes has a text, and loading this text puts the classes into the repository
(`ArrayBounds.Loading.loadJsonText_written`), with the line marks of their methods in order. The
text may stand on one line or on several lines.
-/

namespace ArrayBounds

open Program

namespace Program

/-- The second method is the first one with its line marks in the order of instructions, and of
lines for the same instruction. -/
structure Method.SortsTo (method sorted : Method) : Prop where
  same : sorted = { method with lines := sorted.lines }
  permuted : sorted.lines.toList.Perm method.lines.toList
  ordered : sorted.lines.toList.Pairwise fun a b => a.index < b.index ∨ a.index = b.index ∧
    a.line ≤ b.line

/-- The second class is the first one with the line marks of all methods in order. -/
structure ClassDef.SortsTo (c sorted : ClassDef) : Prop where
  same : sorted = { c with methods := sorted.methods }
  methods : List.Forall₂ Method.SortsTo c.methods sorted.methods

private theorem Method.sortsTo_sortLines (method : Method) :
    method.SortsTo (Loading.sortLines method) where
  same := rfl
  permuted := List.mergeSort_perm _ _
  ordered := (LineMark.pairwise_mergeSort _).imp LineMark.le_iff.mp

private theorem ClassDef.sortsTo_sortLines (c : ClassDef) : c.SortsTo c.sortLines where
  same := rfl
  methods :=
    List.forall₂_map_right_iff.mpr (List.forall₂_same.mpr fun method _ => method.sortsTo_sortLines)

end Program

/-- The text of written classes consists of these classes. -/
theorem Load.classes?_written {classes : List ClassDef}
    (writable : ∀ c ∈ classes, ∀ method ∈ c.methods, method.Writable)
    (shallow : (Json.array (classes.map ClassDef.toJson)).depth ≤ 127) {text : String}
    (read : Json.parse? text = some (.array (classes.map ClassDef.toJson))) (path : String) :
    (json path text).classes? = some (classes.map ClassDef.sortLines) := by
  have within : classes.all ClassDef.jumpsWithin = true := by
    rw [List.all_eq_true]
    intro c member
    rw [ClassDef.jumpsWithin, List.all_eq_true]
    exact fun method here => Method.jumpsWithin_iff.mpr (writable c member method here).jumps
  rw [classes?, read, Option.bind_some, ClassDef.listOfJson?_map_toJson writable shallow]
  exact if_pos within

/-- The last class of a name is found, with its lines sorted. -/
private theorem lookup?_addAll_sortLines (repository : Repository) (classes : List ClassDef)
    (name : String) :
    (repository.addAll (classes.map ClassDef.sortLines)).lookup? name =
      ((classes.filter (·.name == name)).getLast?.map ClassDef.sortLines).or
        (repository.lookup? name) := by
  rw [Repository.lookup?_addAll, List.filter_map, List.getLast?_map]
  rfl

/-- Loading the text of classes succeeds and returns their names. Under each of these names, the
last class with it is found, with the line marks in order. What is found under other names stays the
same. -/
theorem Loading.loadJsonText_written {classes : List ClassDef}
    (writable : ∀ c ∈ classes, ∀ method ∈ c.methods, method.Writable)
    (shallow : (Json.array (classes.map ClassDef.toJson)).depth ≤ 127) {text : String}
    (written : text = (Json.array (classes.map ClassDef.toJson)).compact ∨
      text = (Json.array (classes.map ClassDef.toJson)).pretty) (path : String) (loader : Loader) :
    ∃ next, loadJsonText path text loader = .ok (classes.map (·.name)) next ∧
      (∀ name c, (classes.filter (·.name == name)).getLast? = some c →
        ∃ stored, next.repository.lookup? name = some stored ∧ c.SortsTo stored) ∧
      ∀ name, (∀ c ∈ classes, c.name ≠ name) →
        next.repository.lookup? name = loader.repository.lookup? name := by
  have plain : (Json.array (classes.map ClassDef.toJson)).Plain :=
    .map ClassDef.plain_toJson classes
  have read : Json.parse? text = some (.array (classes.map ClassDef.toJson)) := by
    rcases written with rfl | rfl
    · exact plain.parse?_compact
    · exact plain.parse?_pretty
  have described := Load.classes?_written writable shallow read path
  rcases Load.json_settles path text loader
    with ⟨loaded, log, inOrder, success⟩ | ⟨error, log, broken, -⟩
  · obtain rfl := Option.some.inj (described.symm.trans inOrder)
    rw [List.map_map] at success
    refine ⟨_, success, fun name c last => ?_, fun name absent => ?_⟩
    · refine ⟨c.sortLines, ?_, c.sortsTo_sortLines⟩
      rw [lookup?_addAll_sortLines, last]
      rfl
    · have none : classes.filter (·.name == name) = [] := by
        rw [List.filter_eq_nil_iff]
        intro c member same
        exact absent c member (beq_iff_eq.mp same)
      rw [lookup?_addAll_sortLines, none]
      rfl
  · exact absurd (described.symm.trans broken) (Option.some_ne_none _)

/-- A method with a nested type, a text that has to be escaped, and line marks in the wrong
order. -/
def writtenMethod : Method :=
  { name := "run", descriptor := "(I)V", access := ⟨9⟩
    instructions :=
      #[.newArray (.array (.object "demo/Cell")), .const (.string "\"\n"), .const (.long (-5)),
        .switch 4 [0, 3], .ret none]
    lines := #[⟨2, 9⟩, ⟨0, 7⟩] }

def writtenClass : ClassDef :=
  { name := "demo/Written", superName := some "java/lang/Object", methods := [writtenMethod] }

def writtenText : String :=
  "[\x7b\"name\":\"demo/Written\",\"super_name\":\"java/lang/Object\",\"source_file\":null," ++
  "\"methods\":[\x7b\"name\":\"run\",\"descriptor\":\"(I)V\",\"access_flags\":9," ++
  "\"instructions\":[" ++
  "\x7b\"new_array\":\x7b\"element\":\x7b\"array\":\x7b\"object\":\"demo/Cell\"\x7d\x7d\x7d\x7d," ++
  "\x7b\"const\":\x7b\"string\":\"\\\"\\n\"\x7d\x7d,\x7b\"const\":\x7b\"long\":-5\x7d\x7d," ++
  "\x7b\"switch\":\x7b\"default\":4,\"targets\":[0,3]\x7d\x7d,\x7b\"return\":null\x7d]," ++
  "\"lines\":[\x7b\"index\":2,\"line\":9\x7d,\x7b\"index\":0,\"line\":7\x7d]\x7d]\x7d]"

/-- The method of the example can be written. -/
private theorem writable_writtenMethod : writtenMethod.Writable where
  exact := by decide
  jumps := by decide
  size := by decide
  marks := by decide

private theorem writtenText_eq_compact :
    writtenText = (Json.array ([writtenClass].map ClassDef.toJson)).compact := by
  decide +kernel

/-- The text of the class is loaded, and the class is found. -/
theorem writtenText_loads :
    writtenMethod.Writable ∧ (Json.array ([writtenClass].map ClassDef.toJson)).depth ≤ 127 ∧
      ∃ next, Loading.loadJsonText "written.json" writtenText {} = .ok ["demo/Written"] next ∧
        ∃ stored, next.repository.lookup? "demo/Written" = some stored ∧
          writtenClass.SortsTo stored := by
  have writable : ∀ c ∈ [writtenClass], ∀ method ∈ c.methods, method.Writable := by
    intro c member method here
    rw [List.mem_singleton.mp member] at here
    rw [List.mem_singleton.mp here]
    exact writable_writtenMethod
  have shallow : (Json.array ([writtenClass].map ClassDef.toJson)).depth ≤ 127 := by decide
  obtain ⟨next, success, found, -⟩ :=
    Loading.loadJsonText_written writable shallow (.inl writtenText_eq_compact) "written.json" {}
  exact ⟨writable_writtenMethod, shallow, next, success, found "demo/Written" writtenClass rfl⟩

end ArrayBounds
