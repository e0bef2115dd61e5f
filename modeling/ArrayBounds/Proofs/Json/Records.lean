import ArrayBounds.Json.Record
import ArrayBounds.Proofs.Json.Spelling

/-! # Records are read as they were written

For every kind of value that records are made of, the reader is shown to undo the writer: numbers
within their ranges, names of variants, fields and lists. All values written this way are plain
(`ArrayBounds.Json.Plain`), so they have a text.
-/

namespace ArrayBounds.Json

/-! ## Nesting -/

mutual

/-- The number of arrays and objects within each other. -/
def depth : Json → Nat
  | array items => depthOfItems items + 1
  | object members => depthOfMembers members + 1
  | _ => 0

def depthOfItems : List Json → Nat
  | [] => 0
  | item :: rest => max (depth item) (depthOfItems rest)

def depthOfMembers : List (Literal × Json) → Nat
  | [] => 0
  | (_, value) :: rest => max (depth value) (depthOfMembers rest)

end

/-- The items of an array are one level less deep. -/
theorem depth_le_of_mem_array {items : List Json} {item : Json} {bound : Nat}
    (shallow : (array items).depth ≤ bound + 1) (member : item ∈ items) : item.depth ≤ bound := by
  rw [depth] at shallow
  have inside : depthOfItems items ≤ bound := Nat.le_of_succ_le_succ shallow
  clear shallow
  induction items with
  | nil => exact absurd member List.not_mem_nil
  | cons first rest ih =>
      rw [depthOfItems, Nat.max_le] at inside
      rcases List.mem_cons.mp member with rfl | member
      · exact inside.1
      · exact ih member inside.2

/-- The members of an object are less deep than the object. -/
private theorem depth_le_of_mem_object {members : List (Literal × Json)}
    {member : Literal × Json} {bound : Nat} (shallow : (object members).depth ≤ bound + 1)
    (listed : member ∈ members) : member.2.depth ≤ bound := by
  rw [depth] at shallow
  have inside : depthOfMembers members ≤ bound := Nat.le_of_succ_le_succ shallow
  clear shallow
  induction members with
  | nil => exact absurd listed List.not_mem_nil
  | cons first rest ih =>
      rw [depthOfMembers, Nat.max_le] at inside
      rcases List.mem_cons.mp listed with rfl | listed
      · exact inside.1
      · exact ih listed inside.2

/-- A member of an object whose name is given as a text. -/
def namedMember (member : String × Json) : Literal × Json :=
  (some member.1, member.2)

private theorem ofMembers_eq (members : List (String × Json)) :
    ofMembers members = object (members.map namedMember) := rfl

/-- The members of an object are one level less deep. -/
theorem depth_le_of_mem_ofMembers {members : List (String × Json)} (name : String)
    {value : Json} {bound : Nat} (shallow : (ofMembers members).depth ≤ bound + 1)
    (listed : (name, value) ∈ members) : value.depth ≤ bound :=
  depth_le_of_mem_object shallow (List.mem_map_of_mem (f := namedMember) listed)

/-- A tag adds one level. -/
theorem depth_tagged (name : String) (payload : Json) :
    (tagged name payload).depth = payload.depth + 1 := by
  rw [tagged, ofMembers, depth, List.map_singleton, depthOfMembers, depthOfMembers, Nat.max_zero]

/-- The fields of a record with a tag are two levels less deep. -/
theorem depth_le_of_mem_taggedRecord {tag name : String} {fields : List (String × Json)}
    {value : Json} {bound : Nat} (shallow : (taggedRecord tag fields).depth ≤ bound + 2)
    (member : (name, value) ∈ fields) : value.depth ≤ bound :=
  depth_le_of_mem_ofMembers name
    (depth_le_of_mem_ofMembers tag shallow (List.mem_singleton_self _)) member

/-! ## Numbers -/

private theorem natOfDigits_toDigits (n : Nat) : natOfDigits (Nat.toDigits 10 n) = n :=
  Nat.ofDigitChars_ten_toDigits

/-- The digits of a positive number do not start with zero. -/
private theorem exists_cons_toDigits {n : Nat} (positive : 0 < n) :
    ∃ first rest, Nat.toDigits 10 n = first :: rest ∧ first ≠ '0' := by
  induction n using Nat.strongRecOn with
  | ind n ih =>
      by_cases small : n < 10
      · refine ⟨n.digitChar, [], Nat.toDigits_of_lt_base small, ?_⟩
        rw [Ne, Nat.digitChar_eq_zero]
        exact Nat.ne_of_gt positive
      · obtain ⟨first, rest, digits, notZero⟩ := ih (n / 10) (by omega) (by omega)
        refine ⟨first, rest ++ [(n % 10).digitChar], ?_, notZero⟩
        rw [Nat.toDigits_of_base_le (by decide) (by omega), digits, List.cons_append]

/-- The digits of a number are those of a whole number. -/
private theorem isWhole_toDigits (n : Nat) : isWhole (Nat.toDigits 10 n) = true := by
  by_cases positive : 0 < n
  · obtain ⟨first, rest, digits, notZero⟩ := exists_cons_toDigits positive
    rw [digits]
    unfold isWhole
    split
    · next empty => cases empty
    · rfl
    · next same =>
        obtain ⟨rfl, -⟩ := List.cons.inj same
        simpa using notZero
  · rw [Nat.eq_zero_of_not_pos positive]
    rfl

/-- Integers are spelled properly. -/
private theorem Number.proper_ofInt (n : Int) : (Number.ofInt n).Proper where
  whole := isWhole_toDigits _
  wholeDigits _ member := Nat.isDigit_of_mem_toDigits (by decide) (by decide) member
  fractionDigits _ member := absurd member List.not_mem_nil
  exponentDigits := nofun

private theorem ofNat_eq_ofInt (n : Nat) : Json.ofNat n = Json.ofInt n := by
  simp [Json.ofNat, Json.ofInt, Number.ofNat, Number.ofInt]

/-- Integers of 64 bits, with or without a sign, are given back. -/
private theorem Number.toInt?_ofInt {n : Int} (low : -0x8000000000000000 ≤ n)
    (high : n ≤ 0xFFFFFFFFFFFFFFFF) : (Number.ofInt n).toInt? = some n := by
  have integral : (Number.ofInt n).isIntegral = true := rfl
  have magnitude : natOfDigits (Number.ofInt n).whole = n.natAbs := natOfDigits_toDigits _
  unfold toInt?
  rw [integral, magnitude, Number.ofInt]
  by_cases negative : n < 0
  · have fits : ¬(n.natAbs = 0 ∨ 0x8000000000000000 < n.natAbs) := by omega
    have value : -(n.natAbs : Int) = n := by omega
    rw [if_neg (by decide), if_pos (decide_eq_true negative), if_neg fits, value]
  · have fits : n.natAbs ≤ 0xFFFFFFFFFFFFFFFF := by omega
    have value : (n.natAbs : Int) = n := by omega
    rw [if_neg (by decide), if_neg (by simpa using negative), if_pos fits, value]

/-- An integer within a range is given back. -/
private theorem intBetween?_ofInt {low high n : Int} (least : -0x8000000000000000 ≤ low)
    (greatest : high ≤ 0xFFFFFFFFFFFFFFFF) (above : low ≤ n) (below : n ≤ high) :
    intBetween? low high (ofInt n) = some n := by
  have value := Number.toInt?_ofInt (Int.le_trans least above) (Int.le_trans below greatest)
  have inside : (guard (low ≤ n ∧ n ≤ high) : Option Unit) = some () := if_pos ⟨above, below⟩
  rw [ofInt, intBetween?, value]
  exact congrArg (Option.bind · fun _ => some n) inside

/-- A number that is read within its bounds and converted back is the one that was written. -/
theorem map_intBetween?_ofInt {α : Type} {low high n : Int} {convert : Int → α} {value : α}
    (least : -0x8000000000000000 ≤ low) (greatest : high ≤ 0xFFFFFFFFFFFFFFFF)
    (inside : low ≤ n ∧ n ≤ high) (converts : convert n = value) :
    (intBetween? low high (ofInt n)).map convert = some value := by
  rw [intBetween?_ofInt least greatest inside.1 inside.2, Option.map_some, converts]

/-- A natural number within a range is given back as whatever it is converted to. -/
private theorem map_intBetween?_ofNat {α : Type} {n : Nat} {high : Int}
    {convert : Int → α} {value : α} (greatest : high ≤ 0xFFFFFFFFFFFFFFFF) (below : n < high + 1)
    (converts : convert n = value) : (intBetween? 0 high (ofNat n)).map convert = some value := by
  rw [ofNat_eq_ofInt]
  exact map_intBetween?_ofInt (by decide) greatest
    ⟨Int.natCast_nonneg n, Int.le_of_lt_add_one below⟩ converts

/-- A number of at most 64 bits is read back. -/
theorem nat?_ofNat {n : Nat} (fits : n < UInt64.size) : nat? (ofNat n) = some n :=
  map_intBetween?_ofNat (by decide) (Int.ofNat_lt.mpr fits) (Int.toNat_natCast n)

@[simp] theorem u8?_ofNat (n : UInt8) : u8? (ofNat n.toNat) = some n :=
  map_intBetween?_ofNat (by decide) (Int.ofNat_lt.mpr n.toNat_lt) UInt8.ofNat_toNat

@[simp] theorem u16?_ofNat (n : UInt16) : u16? (ofNat n.toNat) = some n :=
  map_intBetween?_ofNat (by decide) (Int.ofNat_lt.mpr n.toNat_lt) UInt16.ofNat_toNat

@[simp] theorem u32?_ofNat (n : UInt32) : u32? (ofNat n.toNat) = some n :=
  map_intBetween?_ofNat (by decide) (Int.ofNat_lt.mpr n.toNat_lt) UInt32.ofNat_toNat

@[simp] theorem i16?_ofInt (n : Int16) : i16? (ofInt n.toInt) = some n :=
  map_intBetween?_ofInt (by decide) (by decide)
    ⟨n.le_toInt, Int.le_of_lt_add_one n.toInt_lt⟩ n.ofInt_toInt

@[simp] theorem i32?_ofInt (n : Int32) : i32? (ofInt n.toInt) = some n :=
  map_intBetween?_ofInt (by decide) (by decide)
    ⟨n.le_toInt, Int.le_of_lt_add_one n.toInt_lt⟩ n.ofInt_toInt

@[simp] theorem i64?_ofInt (n : Int64) : i64? (ofInt n.toInt) = some n :=
  map_intBetween?_ofInt (by decide) (by decide)
    ⟨n.le_toInt, Int.le_of_lt_add_one n.toInt_lt⟩ n.ofInt_toInt

/-! ## Variants -/

@[simp] theorem text?_ofString (text : String) : text? (ofString text) = some text := rfl

@[simp] theorem bool?_bool (value : Bool) : bool? (bool value) = some value := rfl

@[simp] theorem variant?_tagged (name : String) (payload : Json) :
    variant? (tagged name payload) = some (name, some payload) :=
  rfl

/-- The name of a variant tells it from all others. -/
theorem named?_ofString {α : Type} {all : List α} {name : α → String}
    (distinct : (all.map name).Nodup) {value : α} (listed : value ∈ all) :
    named? all name (ofString (name value)) = some value := by
  change all.find? (name · == name value) = some value
  induction all with
  | nil => exact absurd listed List.not_mem_nil
  | cons first all ih =>
      obtain ⟨fresh, distinct⟩ := List.nodup_cons.mp distinct
      rcases List.mem_cons.mp listed with rfl | listed
      · exact List.find?_cons_of_pos (beq_self_eq_true _)
      · rw [List.find?_cons_of_neg]
        · exact ih distinct listed
        · rw [beq_iff_eq]
          exact fun same => fresh (same ▸ List.mem_map_of_mem listed)

/-- A text is no null. -/
theorem nullable?_ofString {α : Type} {read : Json → Option α} {text : String} {value : α}
    (reads : read (ofString text) = some value) :
    nullable? read (ofString text) = some (some value) := by
  change some <$> read (ofString text) = _
  rw [reads]
  rfl

/-! ## Values that are put together from others -/

namespace Plain

@[simp] theorem ofInt (n : Int) : (Json.ofInt n).Plain :=
  .number (Number.proper_ofInt n)

@[simp] theorem ofNat (n : Nat) : (Json.ofNat n).Plain := by
  rw [ofNat_eq_ofInt]
  exact ofInt n

@[simp] theorem ofString (text : String) : (Json.ofString text).Plain :=
  .string text

/-- An optional value is plain if the value is. -/
theorem ofOption {value : Option Json} (plain : ∀ json, value = some json → json.Plain) :
    (Json.ofOption value).Plain := by
  cases value with
  | none => exact .null
  | some json => exact plain json rfl

/-- An object is plain if its members are. -/
theorem ofMembers {members : List (String × Json)} (each : ∀ member ∈ members, member.2.Plain) :
    (Json.ofMembers members).Plain := by
  constructor
  · intro member listed
    obtain ⟨source, -, rfl⟩ := List.mem_map.mp listed
    rfl
  · intro member listed
    obtain ⟨source, here, rfl⟩ := List.mem_map.mp listed
    exact each source here

/-- A tagged value is plain if the value is. -/
theorem tagged {payload : Json} (plain : payload.Plain) (name : String) :
    (Json.tagged name payload).Plain := by
  apply ofMembers
  intro member listed
  rw [List.mem_singleton.mp listed]
  exact plain

/-- A tagged record is plain if its fields are. -/
theorem taggedRecord {fields : List (String × Json)} (each : ∀ field ∈ fields, field.2.Plain)
    (name : String) : (Json.taggedRecord name fields).Plain :=
  (ofMembers each).tagged name

/-- A list of plain values is plain. -/
theorem map {α : Type} {write : α → Json} (each : ∀ value, (write value).Plain) (values : List α) :
    (Json.array (values.map write)).Plain := by
  constructor
  intro item listed
  obtain ⟨value, -, rfl⟩ := List.mem_map.mp listed
  exact each value

end Plain

/-! ## Fields and lists -/

/-- Where every single value is read, the whole list is. -/
theorem mapM_eq_some {α β : Type} {read : α → Option β} {result : α → β} {values : List α}
    (each : ∀ value ∈ values, read value = some (result value)) :
    values.mapM read = some (values.map result) := by
  induction values with
  | nil => rfl
  | cons value values ih =>
      rw [List.mapM_cons, each value List.mem_cons_self,
        ih fun other member => each other (List.mem_cons_of_mem _ member)]
      rfl

/-- A list is read back if its items are. -/
theorem items?_map {α : Type} {read : Json → Option α} {write : α → Json} {values : List α}
    (each : ∀ value ∈ values, read (write value) = some value) :
    items? read (array (values.map write)) = some values := by
  rw [items?, List.mapM_map]
  exact (mapM_eq_some each).trans (congrArg some (List.map_id _))

/-- The name of a field tells it from all others. -/
theorem uniqueMember?_namedMember {members : List (String × Json)}
    (distinct : (members.map Prod.fst).Nodup) {member : String × Json} (listed : member ∈ members) :
    uniqueMember? (members.map namedMember) member.1 = some (some member.2) := by
  -- Names are distinct, so nothing but the field itself passes the filter.
  have alone : (members.map namedMember).filter (·.1 == some member.1) = [namedMember member] := by
    induction members with
    | nil => exact absurd listed List.not_mem_nil
    | cons first members ih =>
        obtain ⟨fresh, distinct⟩ := List.nodup_cons.mp distinct
        rcases List.mem_cons.mp listed with rfl | listed
        · have others : (members.map namedMember).filter (·.1 == some member.1) = [] := by
            rw [List.filter_eq_nil_iff]
            intro other mapped same
            obtain ⟨source, listed, rfl⟩ := List.mem_map.mp mapped
            have same : source.1 = member.1 := Option.some.inj (beq_iff_eq.mp same)
            exact fresh (same ▸ List.mem_map_of_mem listed)
          rw [List.map_cons, List.filter_cons_of_pos, others]
          exact beq_self_eq_true _
        · rw [List.map_cons, List.filter_cons_of_neg]
          · exact ih distinct listed
          · intro same
            have same : first.1 = member.1 := Option.some.inj (beq_iff_eq.mp same)
            exact fresh (same ▸ List.mem_map_of_mem listed)
  rw [uniqueMember?, alone, namedMember]

/-- The fields of a record are read in their order. -/
theorem fields?_ofMembers {names : List String} {members : List (String × Json)}
    (same : members.map Prod.fst = names) (distinct : names.Nodup) :
    fields? names (ofMembers members) = some (members.map fun member => some member.2) := by
  subst same
  have named : (members.map namedMember).all (·.1.isSome) = true := by
    simp [namedMember]
  rw [ofMembers_eq, fields?, if_pos named, List.mapM_map]
  exact mapM_eq_some fun member listed => uniqueMember?_namedMember distinct listed

end ArrayBounds.Json
