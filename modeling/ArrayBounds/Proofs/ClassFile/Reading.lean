import ArrayBounds.ClassFile.Basic
import ArrayBounds.Proofs.Sequences

/-! # What a reader takes from its input

A reader that succeeds has taken some bytes, and what lies behind them has no influence on it
(`ArrayBounds.ClassFile.Reads`). A delimited reader (`ArrayBounds.ClassFile.Delimited`) does so
whenever it succeeds, and it notices if the bytes that it takes are cut off anywhere. Sequences of
delimited readers are delimited, and so are all the readers of which the format of class files
consists.
-/

namespace ArrayBounds.ClassFile

/-- A reader of bytes that may fail with errors of any type. -/
abbrev ByteReader (ε α : Type) :=
  StateT Cursor (Except ε) α

variable {ε α β : Type} {first : ByteReader ε α} {next : α → ByteReader ε β} {position : Nat}
  {bytes more : List UInt8}

/-- From a position on, the reader takes exactly these bytes, whatever follows them. -/
def Reads (reader : ByteReader ε α) (position : Nat) (bytes : List UInt8) (value : α) : Prop :=
  ∀ rest, reader ⟨bytes ++ rest, position⟩ = .ok (value, ⟨rest, position + bytes.length⟩)

namespace Reads

/-- Returning a value takes no bytes. -/
theorem pure (value : α) : Reads (pure value : ByteReader ε α) position [] value :=
  fun _ => rfl

/-- A sequence of readers takes the bytes of its parts one after the other. -/
theorem bind {value : α} {result : β} (start : Reads first position bytes value)
    (rest : Reads (next value) (position + bytes.length) more result) :
    Reads (first >>= next) position (bytes ++ more) result := by
  intro left
  rw [List.append_assoc, StateT.bind_of_ok (start _), rest left, List.length_append, Nat.add_assoc]

/-- A sequence whose first part takes the bytes up to the end of those of the whole. -/
theorem bind_of_eq {value : α} {result : β} {whole : List UInt8}
    (start : Reads first position bytes value)
    (rest : Reads (next value) (position + bytes.length) more result)
    (split : whole = bytes ++ more) : Reads (first >>= next) position whole result :=
  split ▸ start.bind rest

/-- A reader whose value is made into another one. -/
theorem map {value : α} (start : Reads first position bytes value) (f : α → β) :
    Reads (first >>= fun value => Pure.pure (f value)) position bytes (f value) :=
  start.bind_of_eq (pure (f value)) (List.append_nil bytes).symm

/-- A step that does not read takes no bytes. -/
theorem lift {part : Except ε α} {value : α} (success : part = .ok value) :
    Reads (liftM part : ByteReader ε α) position [] value := by
  subst success
  exact fun _ => rfl

/-- What a reader makes of the bytes alone. -/
theorem alone {reader : ByteReader ε α} {value : α} (reads : Reads reader position bytes value) :
    reader ⟨bytes, position⟩ = .ok (value, ⟨[], position + bytes.length⟩) := by
  simpa using reads []

end Reads

/-- A reader that succeeds looks only at the bytes that it takes, and fails with an error of which
`E` holds if it is given a part of them that ends earlier. -/
structure Delimited (E : ε → Prop) (reader : ByteReader ε α) : Prop where
  reads : ∀ {cursor after value}, reader cursor = .ok (value, after) →
    ∃ bytes, cursor.rest = bytes ++ after.rest ∧ after.position = cursor.position + bytes.length ∧
      Reads reader cursor.position bytes value
  ends : ∀ {position bytes value}, Reads reader position bytes value →
    ∀ cut, cut <+: bytes → cut ≠ bytes → ∃ error, E error ∧ reader ⟨cut, position⟩ = .error error

namespace Delimited

variable {E : ε → Prop}

/-- A reader that succeeds in the same way, whatever its input is, takes nothing. -/
theorem pure (value : α) : Delimited E (pure value : ByteReader ε α) where
  reads {cursor after value'} success := by
    cases success
    exact ⟨[], rfl, rfl, .pure value⟩
  ends {position bytes value'} reads cut front shorter := by
    have nothing : bytes = [] := by
      have took := reads []
      injection took with same
      injection same with _ same
      injection same with same
      simpa using same
    subst nothing
    exact absurd (List.prefix_nil.mp front) shorter

/-- A reader that fails without reading does so whatever follows. -/
theorem throw (error : ε) : Delimited E (throw error : ByteReader ε α) where
  reads success := nomatch success
  ends reads := nomatch reads []

/-- A step that does not read does not depend on the bytes. -/
theorem lift (part : Except ε α) : Delimited E (liftM part : ByteReader ε α) := by
  cases part with
  | error error => exact throw error
  | ok value => exact pure value

/-- A sequence of readers is delimited if its parts are. -/
theorem bind (start : Delimited E first) (rest : ∀ value, Delimited E (next value)) :
    Delimited E (first >>= next) where
  reads {cursor after result} success := by
    obtain ⟨value, between, began, ended⟩ := StateT.bind_eq_ok_iff.mp success
    obtain ⟨front, took, moved, reads⟩ := start.reads began
    obtain ⟨back, took', moved', reads'⟩ := (rest value).reads ended
    refine ⟨front ++ back, ?_, ?_, reads.bind (moved ▸ reads')⟩
    · rw [took, took', List.append_assoc]
    · rw [moved', moved, List.length_append, Nat.add_assoc]
  ends {position bytes result} reads cut front shorter := by
    obtain ⟨value, between, began, ended⟩ := StateT.bind_eq_ok_iff.mp reads.alone
    obtain ⟨bytes₁, took, moved, reads₁⟩ := start.reads began
    obtain ⟨bytes₂, took', -, reads₂⟩ := (rest value).reads ended
    dsimp only at took moved reads₁
    rw [List.append_nil] at took'
    rw [moved, ← took'] at reads₂
    subst took
    -- The bytes are cut off within those of the first part, or within those of the rest.
    obtain inside | ⟨cut₂, rfl⟩ :=
      List.prefix_or_prefix_of_prefix front (List.prefix_append bytes₁ between.rest)
    · by_cases whole : cut = bytes₁
      · subst whole
        have shorter' : [] ≠ between.rest := by
          intro same
          exact shorter (by rw [← same, List.append_nil])
        obtain ⟨error, holds, failure⟩ := (rest value).ends reads₂ [] List.nil_prefix shorter'
        refine ⟨error, holds, ?_⟩
        rw [StateT.bind_of_ok reads₁.alone]
        exact failure
      · obtain ⟨error, holds, failure⟩ := start.ends reads₁ cut inside whole
        exact ⟨error, holds, StateT.bind_of_error failure⟩
    · have inside := (List.prefix_append_right_inj bytes₁).mp front
      have shorter' : cut₂ ≠ between.rest := by
        rintro rfl
        exact shorter rfl
      obtain ⟨error, holds, failure⟩ := (rest value).ends reads₂ cut₂ inside shorter'
      refine ⟨error, holds, ?_⟩
      rw [StateT.bind_of_ok (reads₁ cut₂)]
      exact failure

/-- Converting what is read does not affect the bytes that are taken. -/
theorem map (start : Delimited E first) (f : α → β) : Delimited E (f <$> first) := by
  rw [map_eq_pure_bind]
  exact start.bind fun value => pure (f value)

/-- A choice between two readers is delimited if both of them are. -/
theorem ite {condition : Prop} [Decidable condition] {reader other : ByteReader ε α}
    (yes : condition → Delimited E reader) (no : ¬condition → Delimited E other) :
    Delimited E (if condition then reader else other) := by
  split
  case isTrue holds => exact yes holds
  case isFalse fails => exact no fails

end Delimited

/-! ## Bytes and numbers -/

namespace Decoder

/-- Bytes are taken as they stand. -/
theorem reads_take : Reads (take bytes.length) position bytes bytes := by
  intro rest
  unfold take
  rw [List.take_left, List.drop_left, if_neg (Nat.lt_irrefl _)]

/-- Bytes that are taken are as many as asked for, and the cursor moves behind them. -/
theorem take_eq_ok {count : Nat} {cursor after : Cursor}
    (success : take count cursor = .ok (bytes, after)) :
    bytes.length = count ∧ cursor.rest = bytes ++ after.rest ∧
      after.position = cursor.position + count := by
  unfold take at success
  dsimp only at success
  split at success
  case isTrue => cases success
  case isFalse enough =>
    cases success
    rw [List.length_take] at enough ⊢
    exact ⟨by omega, (List.take_append_drop count cursor.rest).symm, rfl⟩

end Decoder

end ArrayBounds.ClassFile
