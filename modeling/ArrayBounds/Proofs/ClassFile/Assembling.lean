import ArrayBounds.Proofs.ClassFile.Writing

/-! # What the assembler collects

Constants only ever come in behind those that are there
(`ArrayBounds.ClassFile.Assembler.Places.grows`), so a place that has been handed out refers to the
same constant in every later pool, up to the one that is written. What a place stands for is
therefore said of such a later pool.
-/

namespace ArrayBounds.ClassFile.Assembler

variable {α β : Type}

/-- The largest number of constants that take one place each. -/
def maxPool : Nat := 0xFFFE

/-- The encoded constant stands at a place. -/
def At (pool : List (List UInt8)) (index : UInt16) (entry : List UInt8) : Prop :=
  ∃ place, pool[place]? = some entry ∧ index.toNat = place + 1

private theorem getElem?_of_prefix {pool later : List (List UInt8)} {place : Nat}
    {entry : List UInt8} (front : pool <+: later) (found : pool[place]? = some entry) :
    later[place]? = some entry := by
  obtain ⟨more, rfl⟩ := front
  rw [List.getElem?_append_left (List.getElem?_eq_some_iff.mp found).1, found]

/-- Adds constants behind all others. -/
def grow (assembler : Assembler) (more : List (List UInt8)) : Assembler :=
  { assembler with pool := assembler.pool ++ more }

private theorem grow_nil (assembler : Assembler) : assembler.grow [] = assembler := by
  rw [grow, List.append_nil]

private theorem grow_grow (assembler : Assembler) (more more' : List (List UInt8)) :
    (assembler.grow more).grow more' = assembler.grow (more ++ more') := by
  simp only [grow, List.append_assoc]

/-- The action adds constants to the pool and does nothing else. What it returns has the given
meaning in every pool that starts with the constants that are there then. -/
structure Places (action : StateM Assembler α) (meaning : List (List UInt8) → α → Prop) : Prop where
  grows : ∀ assembler, ∃ more, (action.run assembler).2 = assembler.grow more ∧
    ∀ entry ∈ more, ∃ constant, Encodes entry constant
  means : ∀ assembler {pool}, (action.run assembler).2.pool <+: pool → pool.length ≤ maxPool →
    meaning pool (action.run assembler).1

namespace Places

variable {action : StateM Assembler α} {next : α → StateM Assembler β}
  {meaning : List (List UInt8) → α → Prop} {meaning' : List (List UInt8) → β → Prop}

/-- Constants that are there keep their places. -/
theorem le_pool (places : Places action meaning) (assembler : Assembler) :
    assembler.pool <+: (action.run assembler).2.pool := by
  obtain ⟨more, after, -⟩ := places.grows assembler
  rw [after]
  exact List.prefix_append _ more

/-- What the parts of an action place stays in its place until the end. -/
theorem bind (first : Places action meaning)
    (rest : ∀ value, Places (next value) fun pool result => meaning pool value →
      meaning' pool result) :
    Places (action >>= next) meaning' where
  grows assembler := by
    obtain ⟨more, after, encoded⟩ := first.grows assembler
    obtain ⟨more', after', encoded'⟩ :=
      (rest (action.run assembler).1).grows (action.run assembler).2
    refine ⟨more ++ more', ?_,
      fun entry member => (List.mem_append.mp member).elim (encoded entry) (encoded' entry)⟩
    rw [← grow_grow, ← after, ← after']
    rfl
  means assembler pool front short := by
    have before := (rest (action.run assembler).1).le_pool (action.run assembler).2
    exact (rest _).means (action.run assembler).2 front short
      (first.means assembler (before.trans front) short)

/-- Returning a value places nothing. -/
theorem pure {value : α} (holds : ∀ pool, meaning pool value) : Places (pure value) meaning where
  grows assembler := ⟨[], (grow_nil assembler).symm, by simp⟩
  means _ _ _ _ := holds _

private theorem imp {other : List (List UInt8) → α → Prop} (places : Places action meaning)
    (weaker : ∀ pool value, meaning pool value → other pool value) : Places action other where
  grows := places.grows
  means assembler _ front short := weaker _ _ (places.means assembler front short)

end Places

/-- An entry that the pool has is not added again. -/
private theorem run_intern_of_some {assembler : Assembler} {entry : List UInt8} {place : Nat}
    (found : assembler.pool.idxOf? entry = some place) :
    (intern entry).run assembler = (UInt16.ofNat (place + 1), assembler) := by
  simp [intern, found]
  rfl

private theorem run_intern_of_none {assembler : Assembler} {entry : List UInt8}
    (missing : assembler.pool.idxOf? entry = none) :
    (intern entry).run assembler =
      (UInt16.ofNat (assembler.pool.length + 1), assembler.grow [entry]) := by
  simp [intern, missing]
  rfl

/-- An entry is placed in the pool. -/
private theorem places_intern {entry : List UInt8} {constant : Constant}
    (encodes : Encodes entry constant) :
    Places (intern entry) fun pool index => At pool index entry where
  grows assembler := by
    cases found : assembler.pool.idxOf? entry with
    | some place =>
        rw [run_intern_of_some found]
        exact ⟨[], (grow_nil assembler).symm, by simp⟩
    | none =>
        rw [run_intern_of_none found]
        refine ⟨[entry], rfl, fun other member => ⟨constant, ?_⟩⟩
        rw [List.mem_singleton.mp member]
        exact encodes
  means assembler pool front short := by
    -- The place is small enough for its number to be the one that is handed out.
    have number {place : Nat} (below : pool[place]? = some entry) :
        (UInt16.ofNat (place + 1)).toNat = place + 1 := by
      have := (List.getElem?_eq_some_iff.mp below).1
      refine UInt16.toNat_ofNat_of_lt' (show place + 1 < 0x10000 from ?_)
      unfold maxPool at short
      omega
    cases found : assembler.pool.idxOf? entry with
    | some place =>
        rw [run_intern_of_some found] at front ⊢
        obtain ⟨below, same, -⟩ := List.idxOf?_eq_some_iff.mp found
        have here := getElem?_of_prefix front (List.getElem?_eq_some_iff.mpr ⟨below, same⟩)
        exact ⟨place, here, number here⟩
    | none =>
        rw [run_intern_of_none found] at front ⊢
        have last : (assembler.grow [entry]).pool[assembler.pool.length]? = some entry := by
          simp [grow]
        have here := getElem?_of_prefix front last
        exact ⟨_, here, number here⟩

/-! ## Requests for constants -/

/-- What can be said in the texts of a class file in plain UTF-8. -/
structure IsText (text : String) : Prop where
  basic : ∀ c ∈ text.toList, 0x01 ≤ c.toNat ∧ c.toNat ≤ 0xFFFF
  short : text.toUTF8.size ≤ 0xFFFF

private theorem isText_iff {text : String} :
    IsText text ↔ text.toList.all (fun c => 0x01 ≤ c.toNat && c.toNat ≤ 0xFFFF) = true ∧
      text.toUTF8.size ≤ 0xFFFF := by
  simp only [List.all_eq_true, Bool.and_eq_true, decide_eq_true_eq]
  exact ⟨fun ⟨basic, short⟩ => ⟨basic, short⟩, fun ⟨basic, short⟩ => ⟨basic, short⟩⟩

-- The characters of the text are looked at, and not all characters that there are.
instance (text : String) : Decidable (IsText text) :=
  decidable_of_iff' _ isText_iff

/-- The text stands at a place. -/
structure TextAt (pool : List (List UInt8)) (index : UInt16) (text : String) : Prop where
  isText : IsText text
  here : At pool index
    (1 :: bytes16 (UInt16.ofNat text.toUTF8.data.toList.length) ++ text.toUTF8.data.toList)

/-- A constant with the given tag that consists of a text stands at a place. -/
def NamedAt (tag : UInt8) (pool : List (List UInt8)) (index : UInt16) (text : String) : Prop :=
  ∃ name, TextAt pool name text ∧ At pool index (tag :: bytes16 name)

/-- A pair of a name and a descriptor stands at a place. -/
def NameAndTypeAt (pool : List (List UInt8)) (index : UInt16) (name descriptor : String) : Prop :=
  ∃ n d, TextAt pool n name ∧ TextAt pool d descriptor ∧
    At pool index (12 :: bytes16 n ++ bytes16 d)

/-- A reference to a member with the given tag stands at a place. -/
def MemberAt (tag : UInt8) (pool : List (List UInt8)) (index : UInt16)
    (owner name descriptor : String) : Prop :=
  ∃ o m, NamedAt 7 pool o owner ∧ NameAndTypeAt pool m name descriptor ∧
    At pool index (tag :: bytes16 o ++ bytes16 m)

private theorem IsText.encodes {text : String} (isText : IsText text) :
    Encodes (1 :: bytes16 (UInt16.ofNat text.toUTF8.data.toList.length) ++ text.toUTF8.data.toList)
      (.utf8 text) where
  narrow := rfl
  reads := Constant.reads_utf8 isText.basic isText.short

/-- A text stands at the place that is returned for it. -/
theorem places_utf8 {text : String} (isText : IsText text) :
    Places (utf8 text) fun pool index => TextAt pool index text :=
  (places_intern isText.encodes).imp fun _ _ here => ⟨isText, here⟩

/-- A text, and a constant with its place. -/
theorem places_named {text : String} (isText : IsText text) {tag : UInt8}
    {constant : UInt16 → Constant}
    (encodes : ∀ name, Encodes (tag :: bytes16 name) (constant name)) :
    Places (do intern (tag :: bytes16 (← utf8 text)))
      fun pool index => NamedAt tag pool index text :=
  (places_utf8 isText).bind fun name => (places_intern (encodes name)).imp fun _ _ here text =>
    ⟨name, text, here⟩

/-- A class with its name stands at the place that is returned for it. -/
theorem places_classInfo {name : String} (isText : IsText name) :
    Places (classInfo name) fun pool index => NamedAt 7 pool index name :=
  places_named isText fun name => ⟨rfl, Constant.reads_classInfo name⟩

private theorem places_string {text : String} (isText : IsText text) :
    Places (string text) fun pool index => NamedAt 8 pool index text :=
  places_named isText fun text => ⟨rfl, Constant.reads_string text⟩

private theorem places_integer (value : Int32) :
    Places (integer value) fun pool index => At pool index (3 :: bytes32 value.toUInt32) :=
  places_intern ⟨rfl, Constant.reads_integer value⟩

private theorem places_nameAndType {name descriptor : String} (isText : IsText name)
    (isText' : IsText descriptor) :
    Places (nameAndType name descriptor)
      fun pool index => NameAndTypeAt pool index name descriptor :=
  (places_utf8 isText).bind fun n => (places_utf8 isText').bind fun d =>
    (places_intern ⟨rfl, Constant.reads_nameAndType n d⟩).imp fun _ _ here descriptor name =>
      ⟨n, d, name, descriptor, here⟩

/-- A reference to a member is placed, with its owner, name and descriptor. -/
private theorem places_memberRef {owner name descriptor : String} (isText : IsText owner)
    (isText' : IsText name) (isText'' : IsText descriptor) {tag : UInt8}
    {constant : UInt16 → UInt16 → Constant}
    (encodes : ∀ o m, Encodes (tag :: bytes16 o ++ bytes16 m) (constant o m)) :
    Places (memberRef tag owner name descriptor)
      fun pool index => MemberAt tag pool index owner name descriptor :=
  (places_classInfo isText).bind fun o => (places_nameAndType isText' isText'').bind fun m =>
    (places_intern (encodes o m)).imp fun _ _ here member owner => ⟨o, m, owner, member, here⟩

/-! ## Looking constants up -/

section Lookup

variable {entries : List (List UInt8)} {constants : List Constant} {index : UInt16}

/-- Every entry of the pool encodes the constant in its place. -/
private theorem exists_encodes (all : List.Forall₂ Encodes entries constants) {place : Nat}
    {entry : List UInt8} (found : entries[place]? = some entry) :
    ∃ constant, constants[place]? = some constant ∧ Encodes entry constant := by
  induction all generalizing place with
  | nil => simp at found
  | cons encodes _ ih =>
      cases place with
      | zero =>
          cases found
          exact ⟨_, rfl, encodes⟩
      | succ place => exact ih (by simpa using found)

/-- A placed entry is read back as the constant that it encodes. -/
private theorem get_of_at (all : List.Forall₂ Encodes entries constants) {entry : List UInt8}
    {constant : Constant} (here : At entries index entry) (encodes : Encodes entry constant) :
    (ConstantPool.ofConstants constants).get index = .ok constant := by
  obtain ⟨place, found, number⟩ := here
  obtain ⟨other, found', encodes'⟩ := exists_encodes all found
  rw [encodes.unique encodes']
  exact ConstantPool.get_ofConstants found' number

/-- The reader finds the text that stands at a place. -/
theorem utf8_of_textAt (all : List.Forall₂ Encodes entries constants) {text : String}
    (here : TextAt entries index text) :
    (ConstantPool.ofConstants constants).utf8 index = .ok text := by
  unfold ConstantPool.utf8
  rw [get_of_at all here.here here.isText.encodes]
  rfl

/-- The reader finds the name of the class that stands at a place. -/
theorem className_of_namedAt (all : List.Forall₂ Encodes entries constants) {name : String}
    (here : NamedAt 7 entries index name) :
    (ConstantPool.ofConstants constants).className index = .ok name := by
  obtain ⟨place, text, here⟩ := here
  unfold ConstantPool.className
  rw [get_of_at all here ⟨rfl, Constant.reads_classInfo place⟩]
  exact utf8_of_textAt all text

/-- A placed pair of a name and a descriptor is read back. -/
private theorem nameAndType_of_at (all : List.Forall₂ Encodes entries constants)
    {name descriptor : String} (here : NameAndTypeAt entries index name descriptor) :
    (ConstantPool.ofConstants constants).nameAndType index = .ok (name, descriptor) := by
  obtain ⟨n, d, text, text', here⟩ := here
  unfold ConstantPool.nameAndType
  rw [get_of_at all here ⟨rfl, Constant.reads_nameAndType n d⟩]
  change (do
    return (← (ConstantPool.ofConstants constants).utf8 n,
      ← (ConstantPool.ofConstants constants).utf8 d)) = _
  rw [utf8_of_textAt all text, utf8_of_textAt all text']
  rfl

/-- A member that an entry of either kind refers to. -/
theorem memberRef_of_get {pool : ConstantPool} {o m : UInt16} {owner name descriptor : String}
    (got : pool.get index = .ok (.fieldRef o m) ∨ pool.get index = .ok (.methodRef o m))
    (ofClass : pool.className o = .ok owner)
    (member : pool.nameAndType m = .ok (name, descriptor)) :
    pool.memberRef index = .ok ⟨owner, name, descriptor⟩ := by
  unfold ConstantPool.memberRef
  obtain got | got := got
  all_goals
    rw [got]
    change Except.bind (pool.className o) _ = _
    rw [ofClass]
    change Except.bind (pool.nameAndType m) _ = _
    rw [member]
    rfl

end Lookup

/-- A constant that is asked for. -/
inductive Request where
  | utf8 (text : String)
  | classInfo (name : String)
  | string (text : String)
  | integer (value : Int32)
  | fieldRef (owner name descriptor : String)
  | methodRef (owner name descriptor : String)

namespace Request

/-- The place that is handed out. -/
def place : Request → StateM Assembler UInt16
  | utf8 text => Assembler.utf8 text
  | classInfo name => Assembler.classInfo name
  | string text => Assembler.string text
  | integer value => Assembler.integer value
  | fieldRef owner name descriptor => Assembler.fieldRef owner name descriptor
  | methodRef owner name descriptor => Assembler.methodRef owner name descriptor

/-- The texts that occur in the constant. -/
def texts : Request → List String
  | utf8 text | classInfo text | string text => [text]
  | integer _ => []
  | fieldRef owner name descriptor | methodRef owner name descriptor => [owner, name, descriptor]

/-- The constant at a place of the pool is the one that was asked for. -/
def Resolves (pool : ConstantPool) (index : UInt16) : Request → Prop
  | utf8 text => pool.utf8 index = .ok text
  | classInfo name => pool.className index = .ok name
  | string text => ∃ place, pool.get index = .ok (.string place) ∧ pool.utf8 place = .ok text
  | integer value => pool.get index = .ok (.integer value)
  | fieldRef owner name descriptor =>
    (∃ o m, pool.get index = .ok (.fieldRef o m)) ∧
      pool.memberRef index = .ok ⟨owner, name, descriptor⟩
  | methodRef owner name descriptor =>
    (∃ o m, pool.get index = .ok (.methodRef o m)) ∧
      pool.memberRef index = .ok ⟨owner, name, descriptor⟩

/-- The encoded constant at a place is the one that was asked for. -/
def StandsAt (pool : List (List UInt8)) (index : UInt16) : Request → Prop
  | utf8 text => TextAt pool index text
  | classInfo name => NamedAt 7 pool index name
  | string text => NamedAt 8 pool index text
  | integer value => At pool index (3 :: bytes32 value.toUInt32)
  | fieldRef owner name descriptor => MemberAt 9 pool index owner name descriptor
  | methodRef owner name descriptor => MemberAt 10 pool index owner name descriptor

/-- A request stands at the place that is returned for it. -/
theorem places {request : Request} (texts : ∀ text ∈ request.texts, IsText text) :
    Places request.place fun pool index => request.StandsAt pool index := by
  cases request with
  | utf8 text => exact places_utf8 (texts text (by simp [Request.texts]))
  | classInfo name => exact places_classInfo (texts name (by simp [Request.texts]))
  | string text => exact places_string (texts text (by simp [Request.texts]))
  | integer value => exact places_integer value
  | fieldRef owner name descriptor =>
      exact places_memberRef (texts owner (by simp [Request.texts]))
        (texts name (by simp [Request.texts]))
        (texts descriptor (by simp [Request.texts])) fun o m => ⟨rfl, Constant.reads_fieldRef o m⟩
  | methodRef owner name descriptor =>
      exact places_memberRef (texts owner (by simp [Request.texts]))
        (texts name (by simp [Request.texts]))
        (texts descriptor (by simp [Request.texts])) fun o m => ⟨rfl, Constant.reads_methodRef o m⟩

/-- The reader resolves what stands at a place to what was asked for. -/
theorem resolves_of_standsAt {entries : List (List UInt8)} {constants : List Constant}
    (all : List.Forall₂ Encodes entries constants) {index : UInt16} {request : Request}
    (here : request.StandsAt entries index) :
    request.Resolves (ConstantPool.ofConstants constants) index := by
  cases request with
  | utf8 text => exact utf8_of_textAt all here
  | classInfo name => exact className_of_namedAt all here
  | string text =>
      obtain ⟨place, text, here⟩ := here
      exact ⟨place, get_of_at all here ⟨rfl, Constant.reads_string place⟩, utf8_of_textAt all text⟩
  | integer value => exact get_of_at all here ⟨rfl, Constant.reads_integer value⟩
  | fieldRef owner name descriptor =>
      obtain ⟨o, m, owner, member, here⟩ := here
      have got := get_of_at all here ⟨rfl, Constant.reads_fieldRef o m⟩
      exact ⟨⟨o, m, got⟩, memberRef_of_get (.inl got) (className_of_namedAt all owner)
        (nameAndType_of_at all member)⟩
  | methodRef owner name descriptor =>
      obtain ⟨o, m, owner, member, here⟩ := here
      have got := get_of_at all here ⟨rfl, Constant.reads_methodRef o m⟩
      exact ⟨⟨o, m, got⟩, memberRef_of_get (.inr got) (className_of_namedAt all owner)
        (nameAndType_of_at all member)⟩

end Request

end ArrayBounds.ClassFile.Assembler
