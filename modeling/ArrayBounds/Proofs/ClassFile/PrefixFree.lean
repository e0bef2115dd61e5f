import ArrayBounds.ClassFile.Assembler
import ArrayBounds.Proofs.ClassFile.Reading

/-! # Class files do not overlap

No class file is the beginning of another one. If a class file is cut off, wherever that may be,
reading it comes to the end of the input too early, and if there are bytes behind it, they are left
over (`ArrayBounds.ClassFile.parse_prefixFree`).
-/

namespace ArrayBounds.ClassFile

/-- The input has ended too early. -/
def EndsEarly (error : ClassFileError) : Prop :=
  ∃ offset needed, error = .unexpectedEnd offset needed

/-- A decoder that looks only at the bytes that it takes, and that comes to the end of its input too
early if they are cut off. -/
abbrev Framed {α : Type} (decoder : Decoder α) : Prop :=
  Delimited EndsEarly decoder

/-! ## Numbers -/

/-- A given number of bytes is framed. -/
private theorem framed_take (count : Nat) : Framed (Decoder.take count) where
  reads success := by
    obtain ⟨rfl, split, moved⟩ := Decoder.take_eq_ok success
    exact ⟨_, split, moved, Decoder.reads_take⟩
  ends {position bytes value} reads cut front shorter := by
    obtain ⟨rfl, same, moved⟩ := Decoder.take_eq_ok reads.alone
    obtain rfl : bytes = value := by simpa using same
    have fewer : cut.length < bytes.length := by
      refine Nat.lt_of_le_of_ne front.length_le fun same => shorter (front.eq_of_length same)
    refine ⟨.unexpectedEnd position (bytes.length - cut.length), ⟨_, _, rfl⟩, ?_⟩
    unfold Decoder.take
    dsimp only
    rw [List.take_of_length_le (Nat.le_of_lt fewer), if_pos fewer]

private theorem framed_skip (count : Nat) : Framed (Decoder.skip count) :=
  (framed_take count).map _

private theorem framed_u8 : Framed Decoder.u8 :=
  (framed_take 1).bind fun _ => .pure _

private theorem framed_u16 : Framed Decoder.u16 :=
  (framed_take 2).bind fun _ => .pure _

private theorem framed_u32 : Framed Decoder.u32 :=
  (framed_take 4).bind fun _ => .pure _

private theorem framed_u64 : Framed Decoder.u64 :=
  (framed_take 8).bind fun _ => .pure _

private theorem framed_i32 : Framed Decoder.i32 :=
  framed_u32.bind fun _ => .pure _

private theorem framed_i64 : Framed Decoder.i64 :=
  framed_u64.bind fun _ => .pure _

/-- A given number of framed items is framed. -/
private theorem framed_times {α : Type} {item : Decoder α} (framed : Framed item) (count : Nat) :
    Framed (Decoder.times count item) := by
  induction count with
  | zero => exact .pure []
  | succ count ih => exact framed.bind fun first => ih.bind fun rest => .pure (first :: rest)

/-! ## Constants -/

/-- Constants are framed by their tags. -/
private theorem Constant.framed_decode (index : Nat) : Framed (Constant.decode index) := by
  have number {make : UInt16 → Constant} : Framed (Decoder.u16 >>= fun n => pure (make n)) :=
    framed_u16.bind fun _ => .pure _
  have pair {make : UInt16 → UInt16 → Constant} :
      Framed (Decoder.u16 >>= fun m => Decoder.u16 >>= fun n => pure (make m n)) :=
    framed_u16.bind fun _ => framed_u16.bind fun _ => .pure _
  refine framed_u8.bind fun tag => ?_
  split
  · refine framed_u16.bind fun length => (framed_take _).bind fun bytes => ?_
    split
    · exact .pure _
    · exact .throw _
  · exact framed_i32.bind fun _ => .pure _
  · exact framed_u32.bind fun _ => .pure _
  · exact framed_i64.bind fun _ => .pure _
  · exact framed_u64.bind fun _ => .pure _
  case h_12 => exact framed_u8.bind fun _ => number
  case h_18 => exact .throw _
  all_goals first | exact number | exact pair

/-- The entries of a pool are framed by the number of places. -/
private theorem ConstantPool.framed_decodeEntries (places index : Nat) :
    Framed (decodeEntries places index) := by
  induction places using Nat.strongRecOn generalizing index with
  | ind places ih =>
      cases places with
      | zero => exact .pure []
      | succ places =>
          rw [decodeEntries]
          refine (Constant.framed_decode index).bind fun entry => ?_
          split
          · cases places with
            | zero => exact .pure _
            | succ places => exact (ih places (by omega) _).bind fun _ => .pure _
          · exact (ih places (by omega) _).bind fun _ => .pure _

private theorem ConstantPool.framed_decode : Framed ConstantPool.decode :=
  framed_u16.bind fun _ => (framed_decodeEntries _ _).bind fun _ => .pure _

/-! ## Attributes and methods -/

variable (pool : ConstantPool)

private theorem framed_decodeAttribute : Framed (decodeAttribute pool) :=
  framed_u16.bind fun index => (Delimited.lift (pool.utf8 index)).bind fun _ =>
    framed_u32.bind fun _ => (framed_take _).bind fun _ => .pure _

/-- What becomes of the body of an attribute is decided behind it, so that it does not matter where
the input ends. -/
theorem framed_foldAttributes {α : Type} (start : α)
    (visit : α → String → List UInt8 → Except ClassFileError α) :
    Framed (foldAttributes pool start visit) := by
  have go (count : Nat) (value : α) : Framed (foldAttributes.go pool visit count value) := by
    induction count generalizing value with
    | zero => exact .pure value
    | succ count ih =>
        exact (framed_decodeAttribute pool).bind fun (name, body) =>
          (Delimited.lift (visit value name body)).bind ih
  exact framed_u16.bind fun count => go count.toNat start

private theorem Method.framed_decode : Framed (Method.decode pool) :=
  framed_u16.bind fun _ => framed_u16.bind fun name =>
    (Delimited.lift (pool.utf8 name)).bind fun _ =>
      framed_u16.bind fun descriptor => (Delimited.lift (pool.utf8 descriptor)).bind fun _ =>
        (framed_foldAttributes pool none _).bind fun _ => .pure _

private theorem framed_skipAttribute : Framed skipAttribute :=
  (framed_skip 2).bind fun _ => framed_u32.bind fun _ => framed_skip _

private theorem framed_skipField : Framed skipField :=
  (framed_skip 6).bind fun _ => framed_u16.bind fun _ => (framed_times framed_skipAttribute _).map _

private theorem framed_decodeSuper : Framed (decodeSuper pool) := by
  refine framed_u16.bind fun index => .ite (fun _ => .pure _) fun _ => ?_
  exact (Delimited.lift (pool.className index)).bind fun _ => .pure _

/-! ## Class files -/

/-- Class files are framed. -/
private theorem framed_decode : Framed decode := by
  have refused (found : UInt32) : Framed (throw (.invalidMagic found) : Decoder ClassFile) :=
    .throw _
  refine framed_u32.bind fun found => .ite (fun _ => refused found) fun _ => ?_
  refine framed_u16.bind fun minor => framed_u16.bind fun major =>
    ConstantPool.framed_decode.bind fun pool => ?_
  refine framed_u16.bind fun access => framed_u16.bind fun name =>
    (Delimited.lift (pool.className name)).bind fun _ => ?_
  refine (framed_decodeSuper pool).bind fun superName => framed_u16.bind fun interfaceCount => ?_
  refine .bind (framed_times (framed_u16.bind fun index => .lift (pool.className index)) _)
    fun interfaces => ?_
  refine framed_u16.bind fun fieldCount =>
    ((framed_times framed_skipField _).map _).bind fun _ => ?_
  refine framed_u16.bind fun methodCount =>
    (framed_times (Method.framed_decode pool) _).bind fun methods => ?_
  exact (framed_foldAttributes pool none _).bind fun sourceFile => .pure _

/-- Bytes are accepted exactly if a class file can be read from them and takes them all. -/
theorem parse_eq_ok_iff {bytes : List UInt8} {file : ClassFile} :
    parse bytes = .ok file ↔ Reads decode 0 bytes file := by
  constructor
  · intro accepted
    unfold parse at accepted
    cases read : decode { rest := bytes } with
    | error error =>
        rw [read] at accepted
        cases accepted
    | ok result =>
        rw [read] at accepted
        change (if result.2.rest.isEmpty then _ else _) = _ at accepted
        split at accepted
        case isFalse => cases accepted
        case isTrue done =>
          cases accepted
          obtain ⟨taken, split, -, reads⟩ := framed_decode.reads read
          rw [List.isEmpty_iff.mp done, List.append_nil] at split
          subst split
          exact reads
  · intro reads
    unfold parse
    rw [reads.alone]
    rfl

/-- A class file that is cut off anywhere is refused because its input ends too early, and a class
file with bytes behind it because of these bytes. -/
theorem parse_prefixFree {bytes : List UInt8} {file : ClassFile}
    (accepted : parse bytes = .ok file) :
    (∀ cut, cut <+: bytes → cut ≠ bytes → ∃ offset needed,
      parse cut = .error (.unexpectedEnd offset needed)) ∧
      ∀ more, more ≠ [] → parse (bytes ++ more) = .error (.trailingBytes more.length) := by
  have reads := parse_eq_ok_iff.mp accepted
  refine ⟨fun cut front shorter => ?_, fun more further => ?_⟩
  · obtain ⟨error, ⟨offset, needed, rfl⟩, failure⟩ := framed_decode.ends reads cut front shorter
    refine ⟨offset, needed, ?_⟩
    unfold parse
    rw [failure]
    rfl
  · unfold parse
    rw [reads more]
    change (if more.isEmpty then _ else _) = _
    rw [if_neg (by simpa using further)]
    rfl

/-- A class with a method that has a body and a line number. -/
def counterBytes : List UInt8 :=
  let assemble : StateM Assembler Unit := do
    Assembler.setSourceFile "C.java"
    Assembler.addMethod 9 "tick" "()V"
      (some { maxStack := 1, maxLocals := 0, bytes := [0xB1], lines := [⟨0, 7⟩] })
  (assemble.run (Assembler.ofName "C")).2.build

/-- The class of counters can be read. -/
private theorem exists_parse_counterBytes : ∃ file, parse counterBytes = .ok file := by
  have accepted : (parse counterBytes).toOption.isSome = true := by decide +kernel
  cases parsed : parse counterBytes with
  | ok file => exact ⟨file, rfl⟩
  | error error =>
      rw [parsed] at accepted
      cases accepted

/-- The class is refused if it is cut off inside its line numbers, and if a byte follows. -/
theorem counterBytes_prefixFree :
    (∃ file, parse counterBytes = .ok file) ∧
      (∃ offset needed, parse (counterBytes.take 148) = .error (.unexpectedEnd offset needed)) ∧
        parse (counterBytes ++ [0xCA]) = .error (.trailingBytes 1) := by
  obtain ⟨file, accepted⟩ := exists_parse_counterBytes
  obtain ⟨cutOff, followed⟩ := parse_prefixFree accepted
  refine ⟨⟨file, accepted⟩, cutOff _ (List.take_prefix 148 counterBytes) (by decide +kernel),
    followed [0xCA] (by simp)⟩

end ArrayBounds.ClassFile
