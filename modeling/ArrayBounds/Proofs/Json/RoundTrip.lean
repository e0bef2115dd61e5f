import ArrayBounds.Json.Parser
import ArrayBounds.Proofs.Json.Spelling

/-! # Written values are read back

The parser makes a value out of its tokens (`ArrayBounds.Json.Plain.ofTokens?_tokens`), in whatever
containers are open. So a value comes back from its text on one line and from its text over several
lines (`ArrayBounds.Json.Plain.parse?_compact`, `ArrayBounds.Json.Plain.parse?_pretty`).
-/

namespace ArrayBounds.Json

namespace Parser

/-- From the tokens, the parser reads the value, where it expects one. -/
def Reads (spelled : List Token) (value : Json) : Prop :=
  ∀ stack, spelled.foldlM step { expect := .value, stack } = some { expect := .done value, stack }

/-- The first item of an array is read as any other item. -/
theorem Reads.itemOrEnd {value : Json} (reads : Reads value.tokens value) (stack : List Partial) :
    value.tokens.foldlM step { expect := .itemOrEnd, stack } =
      some { expect := .done value, stack } := by
  rw [← reads stack]
  cases value <;> rfl

/-- Behind an item, the other items of an array are read, each one behind a comma. -/
theorem foldlM_items {items : List Json} (each : ∀ item ∈ items, Reads item.tokens item)
    (done : List Json) (item : Json) (stack : List Partial) :
    (items.flatMap (fun item => Token.comma :: item.tokens) ++ [Token.closeArray]).foldlM step
        { expect := .done item, stack := .array done :: stack } =
      some { expect := .done (.array (done.reverse ++ item :: items)), stack } := by
  induction items generalizing item done with
  | nil =>
      rw [← List.reverse_cons]
      rfl
  | cons next items ih =>
      rw [List.flatMap_cons, List.append_assoc, List.foldlM_append]
      have here : (Token.comma :: next.tokens).foldlM step
          { expect := .done item, stack := .array done :: stack } =
          some { expect := .done next, stack := .array (item :: done) :: stack } :=
        each next List.mem_cons_self _
      have further := ih (fun other member => each other (List.mem_cons_of_mem _ member))
        (item :: done) next
      rw [List.reverse_cons, List.append_assoc] at further
      rw [here]
      exact further

/-- Behind a member, the other members of an object are read, each one behind a comma. -/
theorem foldlM_members {members : List (Literal × Json)}
    (each : ∀ member ∈ members, Reads member.2.tokens member.2) (done : List (Literal × Json))
    (member : Literal × Json) (stack : List Partial) :
    (members.flatMap (fun member => Token.comma :: spelledMember member) ++
      [Token.closeObject]).foldlM step
        { expect := .done member.2, stack := .member done member.1 :: stack } =
      some { expect := .done (.object (done.reverse ++ member :: members)), stack } := by
  induction members generalizing member done with
  | nil =>
      rw [← List.reverse_cons]
      rfl
  | cons next members ih =>
      rw [List.flatMap_cons, List.append_assoc, List.foldlM_append]
      have here : (Token.comma :: spelledMember next).foldlM step
          { expect := .done member.2, stack := .member done member.1 :: stack } =
          some { expect := .done next.2, stack := .member (member :: done) next.1 :: stack } :=
        each next List.mem_cons_self _
      have further := ih (fun other later => each other (List.mem_cons_of_mem _ later))
        (member :: done) next
      rw [List.reverse_cons, List.append_assoc] at further
      rw [here]
      exact further

end Parser

/-- The separator stands in front of every item but the first. -/
private theorem intercalate_cons {α : Type} (separator first : List α) (others : List (List α)) :
    separator.intercalate (first :: others) = first ++ others.flatMap (separator ++ ·) := by
  induction others generalizing first with
  | nil => rw [List.intercalate_singleton, List.flatMap_nil, List.append_nil]
  | cons next others ih =>
      rw [List.intercalate_cons_cons, ih, List.flatMap_cons, List.append_assoc, List.append_assoc]

/-- The parser reads the tokens of a plain value. -/
private theorem Plain.reads {value : Json} (plain : value.Plain) :
    Parser.Reads value.tokens value := by
  induction plain with
  | null => exact fun _ => rfl
  | bool value => exact fun _ => rfl
  | number proper => exact fun _ => rfl
  | string text => exact fun _ => rfl
  | @array items each ih =>
      intro stack
      rw [tokens, itemTokens_eq_map]
      cases items with
      | nil => rfl
      | cons item items =>
          have first : (Token.openArray :: item.tokens).foldlM Parser.step
              { expect := .value, stack } =
              some { expect := .done item, stack := .array [] :: stack } :=
            (ih item List.mem_cons_self).itemOrEnd _
          rw [List.map_cons, intercalate_cons, ← List.cons_append, List.append_assoc,
            List.foldlM_append, first, List.flatMap_map]
          exact Parser.foldlM_items (fun other member => ih other (List.mem_cons_of_mem _ member))
            [] item stack
  | @object members named each ih =>
      intro stack
      rw [tokens, memberTokens_eq_map]
      cases members with
      | nil => rfl
      | cons member members =>
          have first : (Token.openObject :: spelledMember member).foldlM Parser.step
              { expect := .value, stack } =
              some { expect := .done member.2, stack := .member [] member.1 :: stack } :=
            ih member List.mem_cons_self _
          rw [List.map_cons, intercalate_cons, ← List.cons_append, List.append_assoc,
            List.foldlM_append, first, List.flatMap_map]
          exact Parser.foldlM_members (fun other later => ih other (List.mem_cons_of_mem _ later))
            [] member stack

/-- The tokens of a plain value are read back as the value. -/
theorem Plain.ofTokens?_tokens {value : Json} (plain : value.Plain) :
    ofTokens? value.tokens = some value := by
  rw [ofTokens?, plain.reads]
  rfl

/-- A text that is split into the tokens of a value is read as this value. -/
theorem Plain.parse?_of_spells {value : Json} (plain : value.Plain) {text : String}
    (spells : Spells text.toList value.tokens) : parse? text = some value := by
  have split := spells #[] [] .nil
  rw [List.append_nil, tokenize.eq_def _ [], Array.empty_append] at split
  rw [parse?, split]
  exact plain.ofTokens?_tokens

/-- A plain value that is written without blanks is read back. -/
theorem Plain.parse?_compact {value : Json} (plain : value.Plain) :
    parse? value.compact = some value :=
  plain.parse?_of_spells plain.spells_compact

/-- A plain value that is written with blanks is read back. -/
theorem Plain.parse?_pretty {value : Json} (plain : value.Plain) :
    parse? value.pretty = some value :=
  plain.parse?_of_spells (plain.spells_prettyAt 0)

end ArrayBounds.Json
