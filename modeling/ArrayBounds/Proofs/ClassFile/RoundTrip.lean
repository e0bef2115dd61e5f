import ArrayBounds.Proofs.ClassFile.Assembling
import ArrayBounds.Proofs.ClassFile.PrefixFree

/-! # The parser reads what the assembler writes

A class is put together by a sequence of operations. Every operation keeps the relation between the
assembler and what has been said about the class so far
(`ArrayBounds.ClassFile.Assembler.Represents`): the places that the assembler remembers refer to the
right constants in the pool that is written in the end. From a class in that relation the parser
reads what has been said, provided that the format has room for it
(`ArrayBounds.ClassFile.Assembler.parse_build`).
-/

namespace ArrayBounds.ClassFile.Assembler

/-! ## Operations -/

/-- An operation on a class that is being put together. -/
inductive Operation where
  | request (constant : Request)
  | setSuper (name : Option String)
  | setAccess (access : UInt16)
  | setSourceFile (name : String)
  | addMethod (access : UInt16) (name descriptor : String) (code : Option Code)

/-- What has been said about a class. -/
structure Declaration where
  access : UInt16 := 1
  superName : Option String := some "java/lang/Object"
  sourceFile : Option String := none
  methods : List Method := []

namespace Operation

/-- What an operation does to the class that is being assembled. -/
def apply : Operation → StateM Assembler Unit
  | request constant => discard constant.place
  | setSuper name => Assembler.setSuper name
  | setAccess access => Assembler.setAccess access
  | setSourceFile name => Assembler.setSourceFile name
  | addMethod access name descriptor code => Assembler.addMethod access name descriptor code

/-- What the operation says about the class. Exception tables are not written. -/
def declare (declaration : Declaration) : Operation → Declaration
  | request _ => declaration
  | setSuper superName => { declaration with superName }
  | setAccess access => { declaration with access }
  | setSourceFile name => { declaration with sourceFile := some name }
  | addMethod access name descriptor code =>
    let method : Method :=
      { access := ⟨access⟩, name, descriptor, code := code.map ({ · with handlers := [] }) }
    { declaration with methods := declaration.methods ++ [method] }

/-- The texts that occur in an operation. -/
def texts : Operation → List String
  | request constant => constant.texts
  | setSuper name => name.toList
  | setAccess _ => []
  | setSourceFile name => [name]
  | addMethod _ name descriptor _ => [name, descriptor]

/-- The body that an operation gives to a method. -/
def code? : Operation → Option Code
  | addMethod _ _ _ code => code
  | _ => none

end Operation

/-- Carries out operations one after the other. -/
def applyAll (assembler : Assembler) (operations : List Operation) : Assembler :=
  operations.foldl (fun assembler operation => (operation.apply.run assembler).2) assembler

/-- The class with the given name after some operations. -/
def assemble (name : String) (operations : List Operation) : Assembler :=
  (ofName name).applyAll operations

/-- What some operations say about a class. -/
def declared (operations : List Operation) : Declaration :=
  operations.foldl Operation.declare {}

/-- The class can be represented in a class file. -/
structure Fits (name : String) (operations : List Operation) : Prop where
  title : IsText name
  texts : ∀ operation ∈ operations, ∀ text ∈ operation.texts, IsText text
  bodies : ∀ operation ∈ operations, ∀ code ∈ operation.code?, code.Fits
  methods : (declared operations).methods.length ≤ 0xFFFF
  pool : (encode.run (assemble name operations)).2.pool.length ≤ maxPool

instance (name : String) (operations : List Operation) : Decidable (Fits name operations) :=
  decidable_of_iff
    (IsText name ∧ (∀ operation ∈ operations, ∀ text ∈ operation.texts, IsText text) ∧
      (∀ operation ∈ operations, ∀ code ∈ operation.code?, code.Fits) ∧
      (declared operations).methods.length ≤ 0xFFFF ∧
      (encode.run (assemble name operations)).2.pool.length ≤ maxPool)
    ⟨fun ⟨title, texts, bodies, methods, pool⟩ => ⟨title, texts, bodies, methods, pool⟩,
      fun ⟨title, texts, bodies, methods, pool⟩ => ⟨title, texts, bodies, methods, pool⟩⟩

/-! ## The class that is put together -/

/-- The method is described by places in the pool. -/
structure Describes (pool : List (List UInt8)) (spec : MethodSpec) (method : Method) : Prop where
  access : method.access = ⟨spec.access⟩
  name : TextAt pool spec.name method.name
  descriptor : TextAt pool spec.descriptor method.descriptor
  code : method.code = spec.code.map ({ · with handlers := [] })
  fits : ∀ code ∈ spec.code, code.Fits

/-- What is said about a class is described by places in the pool. -/
structure Represents (pool : List (List UInt8)) (name : String) (assembler : Assembler)
    (declaration : Declaration) : Prop where
  access : assembler.access = declaration.access
  title : NamedAt 7 pool assembler.thisClass name
  superName : declaration.superName.elim (assembler.superClass = 0)
    (NamedAt 7 pool assembler.superClass)
  sourceFile : declaration.sourceFile.elim (assembler.sourceFile = none) fun name =>
    ∃ index, assembler.sourceFile = some index ∧ TextAt pool index name
  methods : List.Forall₂ (Describes pool) assembler.methods declaration.methods

private theorem Represents.grow {pool more : List (List UInt8)} {name : String}
    {assembler : Assembler} {declaration : Declaration}
    (represents : Represents pool name assembler declaration) :
    Represents pool name (assembler.grow more) declaration :=
  ⟨represents.access, represents.title, represents.superName, represents.sourceFile,
    represents.methods⟩

/-- The later class has the constants of the earlier one, and further constants behind them. -/
def Extends (assembler later : Assembler) : Prop :=
  ∃ more, later.pool = assembler.pool ++ more ∧ ∀ entry ∈ more, ∃ constant, Encodes entry constant

namespace Extends

private theorem refl (assembler : Assembler) : Extends assembler assembler :=
  ⟨[], by simp, by simp⟩

/-- Extensions of extensions are extensions. -/
private theorem trans {first second third : Assembler} (before : Extends first second)
    (after : Extends second third) : Extends first third := by
  obtain ⟨more, same, encoded⟩ := before
  obtain ⟨more', same', encoded'⟩ := after
  refine ⟨more ++ more', ?_,
    fun entry member => (List.mem_append.mp member).elim (encoded entry) (encoded' entry)⟩
  rw [same', same, List.append_assoc]

private theorem isPrefix {assembler later : Assembler} (extends' : Extends assembler later) :
    assembler.pool <+: later.pool := by
  obtain ⟨more, same, -⟩ := extends'
  rw [same]
  exact List.prefix_append _ more

end Extends

private theorem Places.extends {α : Type} {action : StateM Assembler α}
    {meaning : List (List UInt8) → α → Prop} (places : Places action meaning)
    (assembler : Assembler) : Extends assembler (action.run assembler).2 := by
  obtain ⟨more, after, encoded⟩ := places.grows assembler
  exact ⟨more, by rw [after]; rfl, encoded⟩

/-- The operation adds constants and keeps the representation, with what it says about the class. -/
def Operation.Sound (operation : Operation) : Prop :=
  ∀ assembler, Extends assembler (operation.apply.run assembler).2 ∧
    ∀ {pool name declaration}, (operation.apply.run assembler).2.pool <+: pool →
      pool.length ≤ maxPool → Represents pool name assembler declaration →
        Represents pool name (operation.apply.run assembler).2 (operation.declare declaration)

namespace Operation

/-- An operation that asks for constants, and then changes the class but not the constants. -/
theorem sound_of_places {α : Type} {action : StateM Assembler α}
    {meaning : List (List UInt8) → α → Prop} (places : Places action meaning)
    {operation : Operation} (change : α → Assembler → Assembler)
    (applies : ∀ assembler,
      (operation.apply.run assembler).2 = change (action.run assembler).1 (action.run assembler).2)
    (same : ∀ value assembler, (change value assembler).pool = assembler.pool)
    (keeps : ∀ {pool name assembler declaration value}, meaning pool value →
      Represents pool name assembler declaration →
      Represents pool name (change value assembler) (operation.declare declaration)) :
    operation.Sound := by
  intro assembler
  obtain ⟨more, after, encoded⟩ := places.grows assembler
  rw [applies]
  refine ⟨⟨more, by rw [same, after]; rfl, encoded⟩, fun front short represents => ?_⟩
  rw [same] at front
  have here := places.means assembler front short
  rw [after]
  exact keeps here represents.grow

private theorem sound_request {constant : Request} (texts : ∀ text ∈ constant.texts, IsText text) :
    (request constant).Sound :=
  sound_of_places (Request.places texts) (fun _ assembler => assembler) (fun _ => rfl)
    (fun _ _ => rfl) fun _ represents => represents

private theorem sound_setSuper_none : (setSuper none).Sound := by
  refine fun assembler => ⟨.refl assembler, fun _ _ represents => ?_⟩
  exact ⟨represents.access, represents.title, rfl, represents.sourceFile, represents.methods⟩

private theorem sound_setSuper_some {superName : String} (isText : IsText superName) :
    (setSuper (some superName)).Sound :=
  sound_of_places (places_classInfo isText)
    (fun index assembler => { assembler with superClass := index }) (fun _ => rfl)
    (fun _ _ => rfl) fun here represents =>
      ⟨represents.access, represents.title, here, represents.sourceFile, represents.methods⟩

private theorem sound_setAccess (access : UInt16) : (setAccess access).Sound := by
  refine fun assembler => ⟨.refl assembler, fun _ _ represents => ?_⟩
  exact ⟨rfl, represents.title, represents.superName, represents.sourceFile, represents.methods⟩

private theorem sound_setSourceFile {source : String} (isText : IsText source) :
    (setSourceFile source).Sound :=
  sound_of_places (places_utf8 isText)
    (fun index assembler => { assembler with sourceFile := some index }) (fun _ => rfl)
    (fun _ _ => rfl) fun here represents =>
      ⟨represents.access, represents.title, represents.superName, ⟨_, rfl, here⟩,
        represents.methods⟩

/-- Adding a method adds what is declared of it. -/
private theorem sound_addMethod {access : UInt16} {title descriptor : String} {code : Option Code}
    (isText : IsText title) (isText' : IsText descriptor)
    (fits : ∀ body : Code, body ∈ code → body.Fits) :
    (addMethod access title descriptor code).Sound := by
  let names : StateM Assembler (UInt16 × UInt16) := do return (← utf8 title, ← utf8 descriptor)
  have places : Places names fun pool member => TextAt pool member.1 title ∧
      TextAt pool member.2 descriptor :=
    (places_utf8 isText).bind fun name => (places_utf8 isText').bind fun type =>
      .pure fun _ here here' => ⟨here', here⟩
  let add (member : UInt16 × UInt16) (assembler : Assembler) : Assembler :=
    { assembler with methods := assembler.methods ++ [⟨access, member.1, member.2, code⟩] }
  refine sound_of_places places add (fun _ => rfl) (fun _ _ => rfl) fun here represents => ?_
  have describes :
      Describes _ ⟨access, _, _, code⟩
      ⟨⟨access⟩, title, descriptor, code.map ({ · with handlers := [] })⟩ :=
    ⟨rfl, here.1, here.2, rfl, fits⟩
  exact ⟨represents.access, represents.title, represents.superName, represents.sourceFile,
    List.rel_append represents.methods (.cons describes .nil)⟩

end Operation

/-- Every operation adds what is declared of it. -/
private theorem Operation.sound {operation : Operation}
    (texts : ∀ text ∈ operation.texts, IsText text) (bodies : ∀ code ∈ operation.code?, code.Fits) :
    operation.Sound := by
  cases operation with
  | request constant => exact sound_request texts
  | setSuper superName =>
      cases superName with
      | none => exact sound_setSuper_none
      | some superName => exact sound_setSuper_some (texts superName (by simp [Operation.texts]))
  | setAccess access => exact sound_setAccess access
  | setSourceFile source => exact sound_setSourceFile (texts source (by simp [Operation.texts]))
  | addMethod access title descriptor code =>
      exact sound_addMethod (texts title (by simp [Operation.texts]))
        (texts descriptor (by simp [Operation.texts])) bodies

/-! ## Sequences of operations -/

/-- Whatever the operations are, the places in the class still refer to the right constants in the
pool that is written. -/
theorem applyAll_represents {operations : List Operation}
    (texts : ∀ operation ∈ operations, ∀ text ∈ operation.texts, IsText text)
    (bodies : ∀ operation ∈ operations, ∀ code ∈ operation.code?, code.Fits)
    (assembler : Assembler) :
    Extends assembler (assembler.applyAll operations) ∧
      ∀ {pool name declaration}, (assembler.applyAll operations).pool <+: pool →
        pool.length ≤ maxPool → Represents pool name assembler declaration →
          Represents pool name (assembler.applyAll operations)
            (operations.foldl Operation.declare declaration) := by
  induction operations generalizing assembler with
  | nil => exact ⟨.refl assembler, fun _ _ represents => represents⟩
  | cons operation operations ih =>
      simp only [List.mem_cons, forall_eq_or_imp] at texts bodies
      obtain ⟨step, keeps⟩ := Operation.sound texts.1 bodies.1 assembler
      obtain ⟨run, keeps'⟩ := ih texts.2 bodies.2 (operation.apply.run assembler).2
      refine ⟨step.trans run, fun front short represents => ?_⟩
      exact keeps' front short (keeps (run.isPrefix.trans front) short represents)

/-- An assembler starts with a class that has nothing but its name. -/
private theorem ofName_represents {name : String} (isText : IsText name) :
    Extends {} (ofName name) ∧
      ∀ {pool}, (ofName name).pool <+: pool → pool.length ≤ maxPool →
        Represents pool name (ofName name) {} := by
  have object : IsText "java/lang/Object" := by decide +kernel
  have places := places_classInfo isText
  let named : Assembler :=
    { ((classInfo name).run {}).2 with thisClass := ((classInfo name).run {}).1 }
  obtain ⟨step, keeps⟩ := Operation.sound_setSuper_some object named
  have first : Extends {} named := places.extends {}
  refine ⟨first.trans step, fun {pool} front short => ?_⟩
  have here := places.means {} (step.isPrefix.trans front) short
  obtain ⟨more, after, -⟩ := places.grows {}
  have start : Represents pool name named { superName := none } := by
    simp only [named]
    rw [after]
    exact ⟨rfl, here, rfl, rfl, .nil⟩
  exact keeps front short start

/-! ## Writing the class -/

/-- The names of the attributes, and the attributes of the class itself. -/
def attributeNames (sourceFile : Option UInt16) :
    StateM Assembler (UInt16 × UInt16 × List UInt8) := do
  let codeName ← utf8 "Code"
  let linesName ← utf8 "LineNumberTable"
  let source ← sourceFile.elim (pure (bytes16 0)) fun file => do
    let sourceName ← utf8 "SourceFile"
    pure (bytes16 1 ++ withHeader sourceName 2 (bytes16 file))
  return (codeName, linesName, source)

/-- The bytes of a class whose attributes have names. -/
def write (names : UInt16 × UInt16 × List UInt8) (assembler : Assembler) : List UInt8 :=
  bytes32 magic ++ bytes16 0 ++ bytes16 52 ++
    bytes16 (UInt16.ofNat (assembler.pool.length + 1)) ++ assembler.pool.flatten ++
    bytes16 assembler.access ++ bytes16 assembler.thisClass ++ bytes16 assembler.superClass ++
    bytes16 0 ++ bytes16 0 ++
    bytes16 (UInt16.ofNat assembler.methods.length) ++
    assembler.methods.flatMap (encodeMethod names.1 names.2.1) ++ names.2.2

private theorem isText_code : IsText "Code" := by decide +kernel

private theorem isText_lineNumberTable : IsText "LineNumberTable" := by decide +kernel

private theorem isText_sourceFile : IsText "SourceFile" := by decide +kernel

/-- Writing a class adds the names of the attributes to its constants first. -/
theorem run_encode (assembler : Assembler) :
    encode.run assembler =
      (write ((attributeNames assembler.sourceFile).run assembler).1
        ((attributeNames assembler.sourceFile).run assembler).2,
        ((attributeNames assembler.sourceFile).run assembler).2) := by
  -- The first two names leave the source file as it is.
  have kept : ((utf8 "LineNumberTable").run ((utf8 "Code").run assembler).2).2.sourceFile =
      assembler.sourceFile := by
    obtain ⟨more, after, -⟩ := (places_utf8 isText_code).grows assembler
    obtain ⟨more', after', -⟩ :=
      (places_utf8 isText_lineNumberTable).grows ((utf8 "Code").run assembler).2
    rw [after', after]
    rfl
  change Id.run (encode.run assembler) = _
  change (Id.run
    ((utf8 "LineNumberTable").run (Id.run ((utf8 "Code").run assembler)).2)).2.sourceFile =
    _ at kept
  unfold encode
  simp only [StateT.run_bind, Id.run_bind, StateT.run_get, pure_bind, kept]
  cases assembler.sourceFile with
  | none => rfl
  | some file => rfl

/-- The bytes say which attributes the class itself has. -/
def SourceAttribute (pool : List (List UInt8)) (sourceFile : Option UInt16) (bytes : List UInt8) :
    Prop :=
  sourceFile.elim (bytes = bytes16 0) fun file =>
    ∃ index, TextAt pool index "SourceFile" ∧ bytes = bytes16 1 ++ withHeader index 2 (bytes16 file)

/-- The names of the attributes stand at their places. -/
structure NamesAt (pool : List (List UInt8)) (sourceFile : Option UInt16)
    (names : UInt16 × UInt16 × List UInt8) : Prop where
  code : TextAt pool names.1 "Code"
  lines : TextAt pool names.2.1 "LineNumberTable"
  source : SourceAttribute pool sourceFile names.2.2

/-- The names of the attributes are placed in the pool. -/
private theorem places_attributeNames (sourceFile : Option UInt16) :
    Places (attributeNames sourceFile) fun pool names => NamesAt pool sourceFile names := by
  have source : Places (sourceFile.elim (pure (bytes16 0)) fun file => do
      let sourceName ← utf8 "SourceFile"
      pure (bytes16 1 ++ withHeader sourceName 2 (bytes16 file))) fun pool bytes =>
        SourceAttribute pool sourceFile bytes := by
    cases sourceFile with
    | none => exact .pure fun _ => rfl
    | some file =>
        exact (places_utf8 isText_sourceFile).bind fun index => .pure fun _ here =>
          ⟨index, here, rfl⟩
  exact (places_utf8 isText_code).bind fun code =>
    (places_utf8 isText_lineNumberTable).bind fun lines =>
      source.bind fun bytes => .pure fun _ source lines code => ⟨code, lines, source⟩

/-! ## Reading the class -/

/-- The class file that says what has been said about a class. -/
def Declaration.toFile (declaration : Declaration) (name : String) (pool : ConstantPool) :
    ClassFile :=
  { minor := 0, major := 52, pool, access := ⟨declaration.access⟩, name,
    superName := declaration.superName, interfaces := []
    methods := declaration.methods, sourceFile := declaration.sourceFile }

section Reading

variable {pool : List (List UInt8)} {constants : List Constant} {name : String}
  {assembler : Assembler}
  {declaration : Declaration} {names : UInt16 × UInt16 × List UInt8} {position : Nat}

/-- The superclass is read back. -/
private theorem reads_super (all : List.Forall₂ Encodes pool constants)
    (represents : Represents pool name assembler declaration) :
    Reads (decodeSuper (.ofConstants constants)) position (bytes16 assembler.superClass)
      declaration.superName := by
  have here := represents.superName
  refine (reads_u16 _).bind_of_eq ?_ (List.append_nil _).symm
  cases given : declaration.superName with
  | none =>
      rw [given, Option.elim_none] at here
      rw [if_pos here]
      exact .pure none
  | some superName =>
      rw [given, Option.elim_some] at here
      have notZero : assembler.superClass ≠ 0 := by
        intro zero
        obtain ⟨_, _, place, _, number⟩ := here
        rw [zero] at number
        exact absurd number.symm (Nat.succ_ne_zero place)
      rw [if_neg notZero]
      exact (Reads.lift (className_of_namedAt all here)).map some

/-- The methods are read back. -/
private theorem reads_methods (all : List.Forall₂ Encodes pool constants)
    (represents : Represents pool name assembler declaration)
    (titled : NamesAt pool assembler.sourceFile names) :
    Reads (Decoder.times assembler.methods.length (Method.decode (.ofConstants constants))) position
      (assembler.methods.flatMap (encodeMethod names.1 names.2.1)) declaration.methods := by
  refine reads_times (represents.methods.imp fun spec method describes position => ?_)
  exact Method.reads_decode (utf8_of_textAt all titled.code) (utf8_of_textAt all titled.lines)
    describes.access
    (utf8_of_textAt all describes.name) (utf8_of_textAt all describes.descriptor)
    describes.code describes.fits

/-- The name of the source file is read back. -/
private theorem reads_sourceFile (all : List.Forall₂ Encodes pool constants)
    (represents : Represents pool name assembler declaration)
    (titled : NamesAt pool assembler.sourceFile names) :
    Reads (foldAttributes (.ofConstants constants) none fun sourceFile name body =>
        if name = "SourceFile" then
          (do some <$> (ConstantPool.ofConstants constants).utf8 (← Decoder.u16.readFrom body))
        else .ok sourceFile) position names.2.2 declaration.sourceFile := by
  have source := titled.source
  have here := represents.sourceFile
  cases given : declaration.sourceFile with
  | none =>
      rw [given, Option.elim_none] at here
      rw [here, SourceAttribute, Option.elim_none] at source
      rw [source]
      exact reads_noAttributes
  | some file =>
      rw [given, Option.elim_some] at here
      obtain ⟨index, same, text⟩ := here
      rw [same, SourceAttribute, Option.elim_some] at source
      obtain ⟨place, titled, written⟩ := source
      rw [written]
      refine reads_oneAttribute (utf8_of_textAt all titled) rfl ?_
      rw [if_pos rfl, readFrom_of_reads (reads_u16 index)]
      change some <$> (ConstantPool.ofConstants constants).utf8 index = _
      rw [utf8_of_textAt all text]
      rfl

/-- What is written for a class can be read again. -/
theorem reads_write (all : List.Forall₂ Encodes assembler.pool constants)
    (short : assembler.pool.length ≤ maxPool)
    (represents : Represents assembler.pool name assembler declaration)
    (few : declaration.methods.length ≤ 0xFFFF)
    (titled : NamesAt assembler.pool assembler.sourceFile names) :
    Reads decode 0 (write names assembler) (declaration.toFile name (.ofConstants constants)) := by
  have count : (UInt16.ofNat assembler.methods.length).toNat = assembler.methods.length := by
    rw [represents.methods.length_eq]
    exact UInt16.toNat_ofNat_of_lt' (Nat.lt_succ_of_le few)
  simp only [write, List.append_assoc]
  refine (reads_u32 magic).bind ?_
  dsimp only
  rw [if_neg (not_not_intro rfl)]
  refine (reads_u16 0).bind ((reads_u16 52).bind ?_)
  refine (ConstantPool.reads_decode all short).bind_of_eq ?_ (List.append_assoc _ _ _).symm
  refine (reads_u16 _).bind ((reads_u16 _).bind ?_)
  refine (Reads.lift (className_of_namedAt all represents.title)).bind_of_eq ?_
    (List.nil_append _).symm
  refine (reads_super all represents).bind ((reads_u16 0).bind ?_)
  refine (Reads.pure []).bind_of_eq ?_ (List.nil_append _).symm
  refine (reads_u16 0).bind ((Reads.pure PUnit.unit).bind_of_eq ?_ (List.nil_append _).symm)
  refine (reads_u16 _).bind ?_
  rw [count]
  refine (reads_methods all represents titled).bind ?_
  rw [represents.access]
  exact (reads_sourceFile all represents titled).map
    (ClassFile.mk 0 52 (.ofConstants constants) ⟨declaration.access⟩ name declaration.superName []
      declaration.methods)

end Reading

/-- The constants of a class that has been put together. -/
theorem Extends.exists_constants {assembler : Assembler} (extends' : Extends {} assembler) :
    ∃ constants, List.Forall₂ Encodes assembler.pool constants := by
  obtain ⟨entries, same, encoded⟩ := extends'
  rw [same]
  change ∃ constants, List.Forall₂ Encodes entries constants
  clear same
  induction entries with
  | nil => exact ⟨[], .nil⟩
  | cons entry entries ih =>
      simp only [List.mem_cons, forall_eq_or_imp] at encoded
      obtain ⟨constant, encodes⟩ := encoded.1
      obtain ⟨constants, all⟩ := ih encoded.2
      exact ⟨constant :: constants, .cons encodes all⟩

/-- A constant that is asked for on the way stays at its place to the end. -/
theorem place_prefix_assemble {name : String} {before after : List Operation} {constant : Request}
    (texts : ∀ operation ∈ after, ∀ text ∈ operation.texts, IsText text)
    (bodies : ∀ operation ∈ after, ∀ code ∈ operation.code?, code.Fits) :
    (constant.place.run (assemble name before)).2.pool <+:
      (assemble name (before ++ .request constant :: after)).pool := by
  have split : assemble name (before ++ .request constant :: after) =
      (constant.place.run (assemble name before)).2.applyAll after := by
    unfold assemble applyAll
    rw [List.foldl_append]
    rfl
  rw [split]
  exact (applyAll_represents texts bodies _).1.isPrefix

/-- The parser accepts what the assembler writes, and finds in it what has been said about the
class. Every constant that was asked for on the way is at the place that was handed out for it. -/
theorem parse_build {name : String} {operations : List Operation} (fits : Fits name operations) :
    ∃ pool, parse (assemble name operations).build = .ok ((declared operations).toFile name pool) ∧
      ∀ before constant after, operations = before ++ .request constant :: after →
        constant.Resolves pool (constant.place.run (assemble name before)).1 := by
  have start := ofName_represents fits.title
  have run := applyAll_represents fits.texts fits.bodies (ofName name)
  have names := places_attributeNames (assemble name operations).sourceFile
  have written := run_encode (assemble name operations)
  have short := fits.pool
  rw [written] at short
  have last := names.le_pool (assemble name operations)
  obtain ⟨constants, all⟩ :=
    ((start.1.trans run.1).trans (names.extends (assemble name operations))).exists_constants
  refine ⟨.ofConstants constants, ?_, fun before constant after split => ?_⟩
  · have represents := run.2 last short (start.2 (run.1.isPrefix.trans last) short)
    have titled := names.means (assemble name operations) (List.prefix_refl _) short
    obtain ⟨more, grown, -⟩ := names.grows (assemble name operations)
    unfold build
    rw [written]
    rw [grown] at all short represents titled ⊢
    exact parse_eq_ok_iff.mpr (reads_write all short represents.grow fits.methods titled)
  · subst split
    have texts := fits.texts
    have bodies := fits.bodies
    simp only [List.mem_append, List.mem_cons] at texts bodies
    have front : (constant.place.run (assemble name before)).2.pool <+: _ :=
      place_prefix_assemble (fun operation member => texts operation (.inr (.inr member)))
        fun operation member => bodies operation (.inr (.inr member))
    have places := Request.places (texts (.request constant) (.inr (.inl rfl)))
    exact Request.resolves_of_standsAt all (places.means _ (front.trans last) short)

/-- A class with a body, a method without one, constants that are asked for twice and a superclass
that is replaced. -/
def counterOperations : List Operation :=
  [.request (.methodRef "demo/Counter" "step" "(I)I"), .setSuper none,
    .setSourceFile "Counter.java", .addMethod 9 "step" "(I)I"
      (some { maxStack := 2, maxLocals := 1, bytes := [26, 4, 96, 172], handlers := [],
              lines := [⟨0, 7⟩] }),
    .setSuper (some "demo/Café"), .request (.string "step"), .setAccess 0x0401,
    .addMethod 0x0401 "reset" "()V" none]

/-- A class with a source file, two methods and a line table is read back as it was described. -/
theorem parse_build_counter : Fits "demo/Counter" counterOperations ∧
    ∃ pool, parse (assemble "demo/Counter" counterOperations).build =
        .ok ((declared counterOperations).toFile "demo/Counter" pool) ∧
      ∀ before constant after, counterOperations = before ++ .request constant :: after →
        constant.Resolves pool (constant.place.run (assemble "demo/Counter" before)).1 :=
  have fits : Fits "demo/Counter" counterOperations := by decide +kernel
  ⟨fits, parse_build fits⟩

end ArrayBounds.ClassFile.Assembler
