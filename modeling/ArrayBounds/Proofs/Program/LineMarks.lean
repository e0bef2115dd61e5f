import ArrayBounds.Program.Lowering

/-! # Line marks in order

The marks of a lowered method are in the order of their instructions
(`ArrayBounds.Program.ascending_lineMarks`). For marks in that order the bisection finds the last
one at or before an instruction (`ArrayBounds.Program.Method.lineAt_eq`).
-/

namespace ArrayBounds.Program

namespace LineMark

variable {a b c : LineMark}

/-- Marks are ordered by position first and by line then. -/
theorem le_iff : a.le b = true ↔ a.index < b.index ∨ a.index = b.index ∧ a.line ≤ b.line := by
  simp [le]

/-- Ordered marks have ordered positions. -/
theorem index_le_of_le (ordered : a.le b = true) : a.index ≤ b.index := by
  rcases le_iff.mp ordered with earlier | ⟨same, -⟩
  · exact Nat.le_of_lt earlier
  · exact Nat.le_of_eq same

/-- The order of marks is transitive. -/
private theorem le_trans (first : a.le b = true) (second : b.le c = true) : a.le c = true := by
  rw [le_iff] at *
  rcases first with first | ⟨same, first⟩
  · have := index_le_of_le (le_iff.mpr second)
    exact .inl (by omega)
  · rcases second with second | ⟨same', second⟩
    · exact .inl (by omega)
    · exact .inr ⟨same.trans same', UInt32.le_trans first second⟩

/-- Any two marks are ordered. -/
private theorem le_total (a b : LineMark) : (a.le b || b.le a) = true := by
  rw [Bool.or_eq_true, le_iff, le_iff]
  rcases Nat.lt_trichotomy a.index b.index with earlier | same | later
  · exact .inl (.inl earlier)
  · exact (UInt32.le_total a.line b.line).imp (fun less => .inr ⟨same, less⟩) fun less =>
      .inr ⟨same.symm, less⟩
  · exact .inr (.inl later)

/-- The marks are in the order of their instructions. -/
def Ascending (marks : List LineMark) : Prop :=
  marks.Pairwise fun a b => a.index ≤ b.index

/-- Sorted marks are in order. -/
theorem pairwise_mergeSort (marks : List LineMark) :
    (marks.mergeSort le).Pairwise fun a b => a.le b = true :=
  List.pairwise_mergeSort (fun a b c => @le_trans a b c) le_total marks

/-- The positions of sorted marks ascend. -/
theorem ascending_mergeSort (marks : List LineMark) : Ascending (marks.mergeSort le) :=
  (pairwise_mergeSort marks).imp index_le_of_le

/-- Later marks are for later instructions. -/
private theorem Ascending.index_le {marks : Array LineMark} (ordered : Ascending marks.toList)
    {i j : Nat} (before : i ≤ j) (first : marks[i]? = some a) (second : marks[j]? = some b) :
    a.index ≤ b.index := by
  rw [← Array.getElem?_toList, List.getElem?_eq_some_iff] at first second
  obtain ⟨below, rfl⟩ := first
  obtain ⟨below', rfl⟩ := second
  rcases Nat.lt_or_eq_of_le before with before | rfl
  · exact List.pairwise_iff_getElem.mp ordered i j below below' before
  · exact Nat.le_refl _

/-! ## Bisection -/

/-- The marks at or before an instruction are those in front of a position. -/
structure Parts (marks : Array LineMark) (index position : Nat) : Prop where
  within : position ≤ marks.size
  front : ∀ (i : Nat) (mark : LineMark), marks[i]? = some mark → (i < position ↔ mark.index ≤ index)

/-- The search keeps what it knows: the marks in front of its range are at or before the
instruction, and those behind are not. -/
theorem parts_search {marks : Array LineMark} (ordered : Ascending marks.toList)
    {index low size : Nat} (within : low + size ≤ marks.size)
    (front : ∀ (i : Nat) (mark : LineMark), i < low → marks[i]? = some mark → mark.index ≤ index)
    (behind : ∀ (i : Nat) (mark : LineMark), low + size ≤ i → marks[i]? = some mark →
      index < mark.index) : Parts marks index (search marks index low size) := by
  induction size using Nat.strongRecOn generalizing low with
  | ind size ih =>
      rw [search]
      split
      case isTrue more =>
        have middle : marks[low + size / 2]? = some marks[low + size / 2] :=
          Array.getElem?_eq_getElem (by omega)
        simp only [middle, Option.any_some, decide_eq_true_eq]
        by_cases reached : marks[low + size / 2].index ≤ index
        · rw [if_pos reached]
          refine ih (size - size / 2) (by omega) (by omega) ?_ fun i mark => behind i mark ∘ by
            omega
          intro i mark before found
          exact Nat.le_trans (ordered.index_le (Nat.le_of_lt before) found middle) reached
        · rw [if_neg reached]
          refine ih (size - size / 2) (by omega) (by omega) front ?_
          intro i mark after found
          have later := ordered.index_le (by omega) middle found
          omega
      case isFalse few =>
        cases here : marks[low]? with
        | none =>
            rw [Array.getElem?_eq_none_iff] at here
            refine ⟨by simpa using by omega, fun i mark found => ?_⟩
            have below := (Array.getElem?_eq_some_iff.mp found).1
            simpa using ⟨fun _ => front i mark (by omega) found, fun _ => by omega⟩
        | some mark =>
            have below := (Array.getElem?_eq_some_iff.mp here).1
            simp only [Option.any_some, decide_eq_true_eq]
            by_cases reached : mark.index ≤ index
            · rw [if_pos reached]
              refine ⟨by omega, fun i other found => ⟨fun before => ?_, fun earlier => ?_⟩⟩
              · exact Nat.le_trans (ordered.index_le (by omega) found here) reached
              · rcases Nat.lt_or_ge i (low + 1) with before | after
                · exact before
                · have later := behind i other (by omega) found
                  omega
            · rw [if_neg reached]
              refine ⟨by omega, fun i other found =>
                ⟨fun before => front i other (by omega) found, fun earlier => ?_⟩⟩
              rcases Nat.lt_or_ge i low with before | after
              · exact before
              · have later := ordered.index_le after here found
                omega

end LineMark

/-- Where a property holds of the front only, the front is what has it. -/
private theorem filter_eq_take {α : Type} {p : α → Bool} {items : List α} {position : Nat}
    (front : ∀ (i : Nat) (item : α), items[i]? = some item → (i < position ↔ p item = true)) :
    items.filter p = items.take position := by
  induction items generalizing position with
  | nil => simp
  | cons item items ih =>
      cases position with
      | zero =>
          rw [List.take_zero, List.filter_eq_nil_iff]
          intro other member holds
          obtain ⟨i, found⟩ := List.mem_iff_getElem?.mp member
          exact Nat.not_lt_zero i ((front i other found).mpr holds)
      | succ position =>
          have first : p item = true := (front 0 item rfl).mp (Nat.succ_pos position)
          rw [List.filter_cons_of_pos first, List.take_succ_cons, ih fun i other found => ?_]
          rw [← front (i + 1) other found, Nat.succ_lt_succ_iff]

/-- The source line of an instruction is that of the last mark at or before it. -/
theorem Method.lineAt_eq {method : Method} (ordered : LineMark.Ascending method.lines.toList)
    (index : Nat) :
    method.lineAt index =
      ((method.lines.toList.filter (·.index ≤ index)).getLast?).map (·.line) := by
  have parts :
      LineMark.Parts method.lines index
      (LineMark.search method.lines index 0 method.lines.size) := by
    refine LineMark.parts_search ordered (by simp)
      (fun _ _ before => absurd before (Nat.not_lt_zero _)) ?_
    intro i mark after found
    have := (Array.getElem?_eq_some_iff.mp found).1
    omega
  unfold lineAt
  generalize LineMark.search method.lines index 0 method.lines.size = position at parts
  obtain ⟨within, front⟩ := parts
  have taken : method.lines.toList.filter (·.index ≤ index) =
      method.lines.toList.take position := by
    refine filter_eq_take fun i mark found => ?_
    rw [Array.getElem?_toList] at found
    rw [front i mark found, decide_eq_true_eq]
  rw [taken]
  cases position with
  | zero => rfl
  | succ position =>
      have here : method.lines[position]? = some method.lines[position] :=
        Array.getElem?_eq_getElem within
      simp [List.getLast?_take, here]

/-! ## Marks of a line number table -/

/-- Marks are dropped, never moved. -/
private theorem dropRepeatedAfter_sublist (index : Nat) (marks : List LineMark) :
    (dropRepeated.dropRepeatedAfter index marks).Sublist marks := by
  induction marks generalizing index with
  | nil => exact .slnil
  | cons mark marks ih =>
      rw [dropRepeated.dropRepeatedAfter]
      split
      · exact (ih index).cons mark
      · exact (ih mark.index).cons_cons mark

/-- Dropping repeated marks leaves the others in their order. -/
theorem dropRepeated_sublist (marks : List LineMark) : (dropRepeated marks).Sublist marks := by
  cases marks with
  | nil => exact .slnil
  | cons mark marks => exact (dropRepeatedAfter_sublist mark.index marks).cons_cons mark

/-- The marks that are made from the rows of a table ascend. -/
theorem ascending_lineMarks (rows : List ClassFile.LineRow) (offsets : List Nat) :
    LineMark.Ascending (lineMarks rows offsets) :=
  (LineMark.ascending_mergeSort _).sublist (dropRepeated_sublist _)

end ArrayBounds.Program
