import ArrayBounds.Proofs.Program.LineMarks
import ArrayBounds.Proofs.Program.Lowering
import Mathlib.Data.List.Nodup

/-! # Which row of the line number table an instruction gets

By its line number table, an instruction belongs to the row with the last start at or before it
(`ArrayBounds.Program.LastRow`). Lowering moves the start of a row that is inside of an instruction
to the next instruction. Several rows can come together at one instruction in this way, and then the
one with the least line is kept, whichever starts last. So an instruction has the line of its row
exactly if no row that comes together with it has a smaller line
(`ArrayBounds.Program.Method.lineAt_ofClassFile`).
-/

namespace ArrayBounds.Program

open ClassFile

/-! ## The mark of an instruction -/

namespace LineMark

variable {marks : List LineMark} {index : Nat} {mark : LineMark}

/-- The mark is the last one at or before an instruction, and has the least line of those at the
same place. -/
structure Tells (marks : List LineMark) (index : Nat) (mark : LineMark) : Prop where
  member : mark ∈ marks
  reached : mark.index ≤ index
  last : ∀ other ∈ marks, other.index ≤ index → other.index ≤ mark.index
  least : ∀ other ∈ marks, other.index = mark.index → mark.line ≤ other.line

/-- The indices of the marks that are kept ascend strictly. -/
theorem strict_dropRepeatedAfter (ordered : Ascending marks)
    (behind : ∀ mark ∈ marks, index ≤ mark.index) :
    (∀ mark ∈ dropRepeated.dropRepeatedAfter index marks, index < mark.index) ∧
      (dropRepeated.dropRepeatedAfter index marks).Pairwise fun a b => a.index < b.index := by
  induction marks generalizing index with
  | nil => exact ⟨by simp [dropRepeated.dropRepeatedAfter], .nil⟩
  | cons mark marks ih =>
      obtain ⟨first, ordered⟩ := List.pairwise_cons.mp ordered
      obtain ⟨here, behind⟩ := List.forall_mem_cons.mp behind
      rw [dropRepeated.dropRepeatedAfter]
      split
      case isTrue => exact ih ordered behind
      case isFalse differ =>
        obtain ⟨later, strict⟩ := ih ordered first
        have passed : index < mark.index := by omega
        exact ⟨List.forall_mem_cons.mpr
          ⟨passed, fun other member => Nat.lt_trans passed (later other member)⟩,
          List.pairwise_cons.mpr ⟨later, strict⟩⟩

/-- Only one mark of each instruction is left. -/
private theorem strict_dropRepeated (ordered : Ascending marks) :
    (dropRepeated marks).Pairwise fun a b => a.index < b.index := by
  cases marks with
  | nil => exact .nil
  | cons mark marks =>
      obtain ⟨first, ordered⟩ := List.pairwise_cons.mp ordered
      exact List.pairwise_cons.mpr (strict_dropRepeatedAfter ordered first)

/-- A mark that is kept stands for itself and for those behind it at the same place. -/
theorem exists_mem_cons {mark other : LineMark} {kept : List LineMark}
    (first : mark.le other = true)
    (later : other.index = mark.index ∨ ∃ keep ∈ kept, keep.index = other.index ∧
      keep.line ≤ other.line) :
    ∃ keep ∈ mark :: kept, keep.index = other.index ∧ keep.line ≤ other.line := by
  obtain same | ⟨keep, member, found⟩ := later
  · obtain earlier | ⟨-, line⟩ := le_iff.mp first
    · exact absurd same (Nat.ne_of_gt earlier)
    · exact ⟨mark, List.mem_cons_self, same.symm, line⟩
  · exact ⟨keep, List.mem_cons_of_mem _ member, found⟩

private theorem le_refl (mark : LineMark) : mark.le mark = true :=
  le_iff.mpr (.inr ⟨rfl, UInt32.le_refl _⟩)

/-- Of the marks of an instruction the greatest is left. -/
private theorem exists_mem_dropRepeatedAfter (sorted : marks.Pairwise fun a b => a.le b = true)
    {other : LineMark} (member : other ∈ marks) : other.index = index ∨
      ∃ keep ∈ dropRepeated.dropRepeatedAfter index marks, keep.index = other.index ∧
        keep.line ≤ other.line := by
  induction marks generalizing index with
  | nil => simp at member
  | cons mark marks ih =>
      obtain ⟨first, sorted⟩ := List.pairwise_cons.mp sorted
      rw [dropRepeated.dropRepeatedAfter]
      split
      case isTrue same =>
        obtain rfl | member := List.mem_cons.mp member
        · exact .inl same
        · exact ih sorted member
      case isFalse differ =>
        obtain rfl | member := List.mem_cons.mp member
        · exact .inr (exists_mem_cons (le_refl other) (.inl rfl))
        · exact .inr (exists_mem_cons (first other member) (ih sorted member))

/-- Of several marks at one place, one with the least line is kept. -/
theorem exists_mem_dropRepeated (sorted : marks.Pairwise fun a b => a.le b = true)
    {other : LineMark} (member : other ∈ marks) :
    ∃ keep ∈ dropRepeated marks, keep.index = other.index ∧ keep.line ≤ other.line := by
  cases marks with
  | nil => simp at member
  | cons mark marks =>
      obtain ⟨first, sorted⟩ := List.pairwise_cons.mp sorted
      obtain rfl | member := List.mem_cons.mp member
      · exact exists_mem_cons (le_refl other) (.inl rfl)
      · exact exists_mem_cons (first other member) (exists_mem_dropRepeatedAfter sorted member)

/-- The last mark at or before an instruction of those that are kept tells the line. -/
theorem tells_of_getLast? (sorted : marks.Pairwise fun a b => a.le b = true)
    (found : ((dropRepeated marks).filter (·.index ≤ index)).getLast? = some mark) :
    Tells marks index mark := by
  have ordered : Ascending marks := sorted.imp index_le_of_le
  obtain ⟨earlier, split⟩ := List.getLast?_eq_some_iff.mp found
  have strict : (earlier ++ [mark]).Pairwise fun a b => a.index < b.index :=
    split ▸ (strict_dropRepeated ordered).filter _
  have here : mark ∈ (dropRepeated marks).filter (·.index ≤ index) :=
    split ▸ List.mem_append_right _ List.mem_cons_self
  obtain ⟨kept, reached⟩ := List.mem_filter.mp here
  have reached := of_decide_eq_true reached
  -- Every mark that is reached is kept, or one at the same place is; and the last of them is the
  -- mark.
  have others (other : LineMark) (member : other ∈ marks) (reached' : other.index ≤ index) :
      other.index < mark.index ∨ other.index = mark.index ∧ mark.line ≤ other.line := by
    obtain ⟨keep, member, same, line⟩ := exists_mem_dropRepeated sorted member
    have candidate : keep ∈ (dropRepeated marks).filter (·.index ≤ index) :=
      List.mem_filter.mpr ⟨member, decide_eq_true (same ▸ reached')⟩
    rw [split, List.mem_append, List.mem_singleton] at candidate
    obtain before | rfl := candidate
    · exact .inl (same ▸ (List.pairwise_append.mp strict).2.2 keep before mark List.mem_cons_self)
    · exact .inr ⟨same.symm, line⟩
  refine ⟨(dropRepeated_sublist marks).mem kept, reached, fun other member reached' => ?_,
    fun other member same => ?_⟩
  · obtain earlier | ⟨same, -⟩ := others other member reached'
    · exact Nat.le_of_lt earlier
    · exact Nat.le_of_eq same
  · obtain earlier | ⟨-, line⟩ := others other member (same ▸ reached)
    · exact absurd same (Nat.ne_of_lt earlier)
    · exact line

end LineMark

/-! ## Rows and positions -/

section Rows

variable {rows : List LineRow} {offsets : List Nat} {position here : Nat} {row other : LineRow}

/-- The position from which on a row applies: that of the first instruction at or behind its
start. -/
def firstPosition (offsets : List Nat) (row : LineRow) : Nat :=
  (offsets.takeWhile (· < row.start.toNat)).length

/-- A row applies from the first position on that is not before its start. -/
theorem firstPosition_le_iff (ascending : offsets.Pairwise (· < ·))
    (found : offsets[position]? = some here) :
    firstPosition offsets row ≤ position ↔ row.start.toNat ≤ here := by
  unfold firstPosition
  induction offsets generalizing position with
  | nil => simp at found
  | cons offset offsets ih =>
      obtain ⟨first, ascending⟩ := List.pairwise_cons.mp ascending
      rw [List.takeWhile_cons]
      cases position with
      | zero =>
          obtain rfl : offset = here := Option.some.inj found
          split
          case isTrue before => simpa using before
          case isFalse reached => simpa using reached
      | succ position =>
          split
          case isTrue before =>
            rw [List.length_cons, Nat.succ_le_succ_iff]
            exact ih ascending found
          case isFalse reached =>
            have later := first here (List.mem_of_getElem? found)
            simp at reached
            exact iff_of_true (Nat.zero_le _) (by omega)

/-- The marks are made of the rows that have an instruction at or behind their start. -/
private theorem mem_marks_iff {mark : LineMark} : mark ∈ rows.filterMap (markOf? offsets) ↔
    ∃ row ∈ rows, firstPosition offsets row < offsets.length ∧
      mark = ⟨firstPosition offsets row, row.line.toUInt32⟩ := by
  rw [List.mem_filterMap]
  constructor
  · rintro ⟨row, member, found⟩
    unfold markOf? at found
    dsimp only at found
    split at found
    case isTrue inside => exact ⟨row, member, inside, (Option.some.inj found).symm⟩
    case isFalse => cases found
  · rintro ⟨row, member, inside, rfl⟩
    exact ⟨row, member, if_pos inside⟩

/-- Of the rows that start at or before an offset, none applies from a later position on, and none
from the same position has a smaller line. -/
structure Prevails (rows : List LineRow) (offsets : List Nat) (here : Nat) (row : LineRow) :
    Prop where
  member : row ∈ rows
  reached : row.start.toNat ≤ here
  last : ∀ other ∈ rows, other.start.toNat ≤ here →
    firstPosition offsets other ≤ firstPosition offsets row
  least : ∀ other ∈ rows, firstPosition offsets other = firstPosition offsets row →
    row.line ≤ other.line

private theorem firstPosition_lt (ascending : offsets.Pairwise (· < ·))
    (found : offsets[position]? = some here) (reached : row.start.toNat ≤ here) :
    firstPosition offsets row < offsets.length :=
  Nat.lt_of_le_of_lt ((firstPosition_le_iff ascending found).mpr reached)
    (List.getElem?_eq_some_iff.mp found).1

/-- An instruction gets the line of a row that prevails, and none if no row starts at or before
it. -/
theorem Method.lineAt_of_rows {method : Method}
    (lines : method.lines.toList = lineMarks rows offsets) (ascending : offsets.Pairwise (· < ·))
    (found : offsets[position]? = some here) :
    ((∀ row ∈ rows, here < row.start.toNat) ∧ method.lineAt position = none) ∨
      ∃ row, Prevails rows offsets here row ∧ method.lineAt position = some row.line.toUInt32 := by
  have sorted := LineMark.pairwise_mergeSort (rows.filterMap (markOf? offsets))
  have mark {row : LineRow} (member : row ∈ rows)
      (inside : firstPosition offsets row < offsets.length) :
      ⟨firstPosition offsets row, row.line.toUInt32⟩ ∈
        (rows.filterMap (markOf? offsets)).mergeSort LineMark.le :=
    List.mem_mergeSort.mpr (mem_marks_iff.mpr ⟨row, member, inside, rfl⟩)
  rw [lineAt_eq (lines ▸ ascending_lineMarks rows offsets), lines, lineMarks]
  cases last : ((dropRepeated ((rows.filterMap (markOf? offsets)).mergeSort LineMark.le)).filter
      (·.index ≤ position)).getLast? with
  | none =>
      refine .inl ⟨fun row member => Nat.lt_of_not_le fun reached => ?_, rfl⟩
      have inside := firstPosition_lt ascending found reached
      obtain ⟨keep, kept, same, -⟩ := LineMark.exists_mem_dropRepeated sorted (mark member inside)
      have before : keep.index ≤ position :=
        same ▸ (firstPosition_le_iff ascending found).mpr reached
      exact List.not_mem_nil
        (List.getLast?_eq_none_iff.mp last ▸ List.mem_filter.mpr ⟨kept, decide_eq_true before⟩)
  | some told =>
      have tells := LineMark.tells_of_getLast? sorted last
      obtain ⟨row, member, inside, rfl⟩ := mem_marks_iff.mp (List.mem_mergeSort.mp tells.member)
      have reached := (firstPosition_le_iff ascending found).mp tells.reached
      refine .inr
        ⟨row, ⟨member, reached, fun other member' reached' => ?_, fun other member' same => ?_⟩,
          rfl⟩
      · exact tells.last _ (mark member' (firstPosition_lt ascending found reached'))
          ((firstPosition_le_iff ascending found).mpr reached')
      · exact UInt16.toUInt32_le.mp (tells.least _ (mark member' (same ▸ inside)) same)

end Rows

/-! ## The offsets of the instructions -/

variable {pool : ConstantPool}

/-- Bytes in front of any others are read as the instruction that they spell, if its displacements
lead to offsets. -/
theorem Spells.exists_read {offset : Nat} {bytes : List UInt8} {instruction : Instruction}
    {displacements : List Int} (spells : Spells pool offset bytes instruction displacements)
    (reachable : ∀ displacement ∈ displacements, 0 ≤ (offset : Int) + displacement)
    (rest : List UInt8) :
    ∃ other, Site.instruction { pool, method := "", offset } ⟨bytes ++ rest, offset⟩ =
      .ok (other, ⟨rest, offset + bytes.length⟩) := by
  obtain ⟨opcode, operands, form, rfl, known, spells⟩ := spells
  have long : (displacements.map fun displacement => ((offset : Int) + displacement).toNat).length =
      instruction.targets.length := by
    rw [List.length_map, spells.length_targets]
  obtain ⟨other, retargets, targets⟩ := Instruction.exists_retargets long
  refine ⟨other, Site.exact_instruction.eq_ok_iff.mpr ⟨opcode :: operands, rfl, rfl, displacements,
    ⟨opcode, operands, form, rfl, known, spells.retarget retargets⟩, ?_⟩⟩
  rw [targets, List.map_map]
  exact List.map_congr_left fun displacement member =>
    Int.toNat_of_nonneg (reachable displacement member)

namespace LaidOut

variable {code : List UInt8} {instructions : Array Instruction} {offset offset' : Nat → Nat}

/-- Later instructions start at later offsets. -/
private theorem le_of_le (laidOut : LaidOut pool code instructions offset) {first last : Nat}
    (ordered : first ≤ last) (within : last ≤ instructions.size) : offset first ≤ offset last := by
  induction last with
  | zero => exact Nat.le_of_eq (congrArg offset (Nat.le_zero.mp ordered))
  | succ last ih =>
      obtain rfl | earlier := Nat.eq_or_lt_of_le ordered
      · exact Nat.le_refl _
      · have before := ih (Nat.le_of_lt_succ earlier) (Nat.le_of_succ_le within)
        exact Nat.le_trans before (Nat.le_of_lt (laidOut.ascends last within))

/-- The code from an instruction on is read as this instruction, up to the offset of the next
one. -/
theorem exists_read (laidOut : LaidOut pool code instructions offset) {position : Nat}
    (below : position < instructions.size) :
    ∃ other, Site.instruction { pool, method := "", offset := offset position }
      ⟨code.drop (offset position), offset position⟩ =
      .ok (other, ⟨code.drop (offset (position + 1)), offset (position + 1)⟩) := by
  obtain ⟨displacements, spells, -, far⟩ := laidOut.spelled position below
  have reachable : ∀ displacement ∈ displacements, 0 ≤ (offset position : Int) + displacement := by
    intro displacement member
    have lands : (offset position : Int) + displacement ∈
        displacements.map ((offset position : Int) + ·) :=
      List.mem_map_of_mem member
    obtain ⟨target, -, same⟩ := List.mem_map.mp (far ▸ lands)
    omega
  have before := laidOut.ascends position below
  have within : offset (position + 1) ≤ code.length :=
    laidOut.stop ▸ laidOut.le_of_le below (Nat.le_refl _)
  obtain ⟨other, read⟩ := spells.exists_read reachable (code.drop (offset (position + 1)))
  have whole : code.extract (offset position) (offset (position + 1)) ++ code.drop
      (offset (position + 1)) =
      code.drop (offset position) := by
    have split := List.take_append_drop (offset (position + 1) - offset position)
      (code.drop (offset position))
    rwa [List.drop_drop, Nat.add_sub_cancel' (Nat.le_of_lt before), ← List.extract_eq_take_drop]
      at split
  have long : offset position + (code.extract (offset position) (offset (position + 1))).length =
      offset (position + 1) := by
    rw [List.extract_eq_take_drop, List.length_take, List.length_drop]
    omega
  rw [whole, long] at read
  exact ⟨other, read⟩

/-- The code and the instructions determine the offsets. -/
theorem offset_eq (laidOut : LaidOut pool code instructions offset)
    (other : LaidOut pool code instructions offset') {position : Nat}
    (within : position ≤ instructions.size) : offset position = offset' position := by
  induction position with
  | zero => exact laidOut.start.trans other.start.symm
  | succ position ih =>
      have same := ih (Nat.le_of_succ_le within)
      obtain ⟨_, read⟩ := laidOut.exists_read within
      obtain ⟨_, read'⟩ := other.exists_read within
      rw [same, read'] at read
      obtain ⟨-, after⟩ := Prod.mk.inj (Except.ok.inj read)
      exact (congrArg Cursor.position after).symm

end LaidOut

/-! ## The line of an instruction -/

/-- The row that the table gives for an offset: none that starts at or before it starts later. -/
structure LastRow (rows : List LineRow) (offset : Nat) (row : LineRow) : Prop where
  member : row ∈ rows
  reached : row.start.toNat ≤ offset
  last : ∀ other ∈ rows, other.start.toNat ≤ offset → other.start.toNat ≤ row.start.toNat

/-- The rows apply from the same instruction on: none of the instructions stands between their
starts. -/
def AppliesWith (offset : Nat → Nat) (count : Nat) (row other : LineRow) : Prop :=
  ∀ position < count, row.start.toNat ≤ offset position ↔ other.start.toNat ≤ offset position

section Offsets

variable {rows : List LineRow} {offsets : List Nat} {offset : Nat → Nat} {row other : LineRow}

/-- Rows apply from the same instruction on exactly if their first positions are the same. -/
theorem appliesWith_iff (ascending : offsets.Pairwise (· < ·))
    (starts : ∀ position < offsets.length, offsets[position]? = some (offset position))
    (inside : firstPosition offsets row < offsets.length) :
    AppliesWith offset offsets.length row other ↔
      firstPosition offsets other = firstPosition offsets row := by
  have applies (row : LineRow) {position : Nat} (below : position < offsets.length) :
      row.start.toNat ≤ offset position ↔ firstPosition offsets row ≤ position :=
    (firstPosition_le_iff ascending (starts position below)).symm
  constructor
  · intro together
    have before : firstPosition offsets other ≤ firstPosition offsets row :=
      (applies other inside).mp ((together _ inside).mp ((applies row inside).mpr (Nat.le_refl _)))
    have inside' := Nat.lt_of_le_of_lt before inside
    have behind : firstPosition offsets row ≤ firstPosition offsets other :=
      (applies row inside').mp
        ((together _ inside').mpr ((applies other inside').mpr (Nat.le_refl _)))
    exact Nat.le_antisymm before behind
  · intro same position below
    rw [applies row below, applies other below, same]

/-- The row that prevails comes together with the one that starts last. -/
theorem Prevails.firstPosition_eq {position : Nat} {chosen : LineRow}
    (prevails : Prevails rows offsets (offset position) chosen)
    (last : LastRow rows (offset position) row) (ascending : offsets.Pairwise (· < ·))
    (starts : ∀ position < offsets.length, offsets[position]? = some (offset position))
    (inside : firstPosition offsets row < offsets.length) :
    firstPosition offsets chosen = firstPosition offsets row := by
  have earlier := last.last chosen prevails.member prevails.reached
  have here := (firstPosition_le_iff ascending (starts _ inside)).mp
    (Nat.le_refl (firstPosition offsets row))
  have before := (firstPosition_le_iff ascending (starts _ inside)).mpr (Nat.le_trans earlier here)
  exact Nat.le_antisymm before (prevails.last row last.member last.reached)

/-- Rows that start at instructions come together only if they start at the same one. -/
theorem AppliesWith.start_eq {count position position' : Nat}
    (together : AppliesWith offset count row other) (below : position < count)
    (here : offset position = row.start.toNat) (below' : position' < count)
    (here' : offset position' = other.start.toNat) : row.start = other.start := by
  have before : other.start.toNat ≤ offset position :=
    (together position below).mp (Nat.le_of_eq here.symm)
  have behind : row.start.toNat ≤ offset position' :=
    (together position' below').mpr (Nat.le_of_eq here'.symm)
  exact UInt16.toNat.inj (by omega)

end Offsets

/-- The marks of a lowered method are made from the offsets of its instructions. -/
theorem Method.exists_offsets {method : ClassFile.Method} {code : Code} {lowered : Method}
    {offset : Nat → Nat} (body : method.code = some code)
    (success : Method.ofClassFile pool method = .ok lowered)
    (laidOut : LaidOut pool code.bytes lowered.instructions offset) :
    ∃ offsets : List Nat, lowered.lines.toList = lineMarks code.lines offsets ∧
      offsets.length = lowered.instructions.size ∧
      (∀ position < offsets.length, offsets[position]? = some (offset position)) ∧
      offsets.Pairwise (· < ·) := by
  obtain ⟨placed, instructions, decodes, reached, resolved, rfl⟩ :=
    (ofClassFile_eq_ok_iff body).mp success
  have size : instructions.length = placed.length := by
    simpa using (congrArg List.length resolved).symm
  have starts : ∀ position < (placed.map Placed.offset).length,
      (placed.map Placed.offset)[position]? = some (offset position) := by
    intro position below
    rw [List.length_map] at below
    have same := laidOut.offset_eq (decodes.laidOut reached resolved)
      (by simpa [size] using Nat.le_of_lt below)
    rw [same, offsetAt, List.getElem?_map, List.getElem?_eq_getElem below]
    rfl
  refine ⟨placed.map Placed.offset, rfl, by simp [size], starts, ?_⟩
  rw [List.pairwise_iff_getElem]
  intro first second below below' before
  have strict := laidOut.ascends first (by simpa [size] using below)
  have ordered : offset (first + 1) ≤ offset second :=
    laidOut.le_of_le before (by simpa [size] using Nat.le_of_lt below')
  have here := starts first below
  have here' := starts second below'
  rw [List.getElem?_eq_getElem below, Option.some.injEq] at here
  rw [List.getElem?_eq_getElem below', Option.some.injEq] at here'
  omega

/-- An instruction has no line if no row starts at or before it. Otherwise it has the least line of
the rows that come together with the last one. So this is the line of the last row exactly if none
of the others has a smaller line, which is the case if all rows start at instructions and no two of
them at the same. -/
theorem Method.lineAt_ofClassFile {method : ClassFile.Method} {code : Code} {lowered : Method}
    {offset : Nat → Nat} (body : method.code = some code)
    (success : Method.ofClassFile pool method = .ok lowered)
    (laidOut : LaidOut pool code.bytes lowered.instructions offset) {position : Nat}
    (below : position < lowered.instructions.size) :
    ((∀ row ∈ code.lines, offset position < row.start.toNat) → lowered.lineAt position = none) ∧
      ∀ row, LastRow code.lines (offset position) row →
        (∃ chosen ∈ code.lines, AppliesWith offset lowered.instructions.size row chosen ∧
          (∀ other ∈ code.lines, AppliesWith offset lowered.instructions.size row other →
            chosen.line ≤ other.line) ∧
          lowered.lineAt position = some chosen.line.toUInt32) ∧
        (lowered.lineAt position = some row.line.toUInt32 ↔
          ∀ other ∈ code.lines, AppliesWith offset lowered.instructions.size row other →
            row.line ≤ other.line) ∧
        ((code.lines.map LineRow.start).Nodup →
          (∀ row ∈ code.lines, ∃ position < lowered.instructions.size,
            offset position = row.start.toNat) →
          lowered.lineAt position = some row.line.toUInt32) := by
  obtain ⟨offsets, lines, size, starts, ascending⟩ := exists_offsets body success laidOut
  rw [← size] at below ⊢
  have found := starts position below
  obtain ⟨ahead, unknown⟩ | ⟨chosen, prevails, told⟩ := lineAt_of_rows lines ascending found
  · refine ⟨fun _ => unknown, fun row last => ?_⟩
    exact absurd last.reached (Nat.not_le_of_lt (ahead row last.member))
  · refine ⟨fun ahead => absurd prevails.reached (Nat.not_le_of_lt (ahead chosen prevails.member)),
      fun row last => ?_⟩
    have inside := firstPosition_lt ascending found last.reached
    have same := prevails.firstPosition_eq last ascending starts inside
    have chosenTogether := (appliesWith_iff ascending starts inside).mpr same
    have least : ∀ other ∈ code.lines, AppliesWith offset offsets.length row other →
        chosen.line ≤ other.line :=
      fun other member together =>
        prevails.least other member
          (((appliesWith_iff ascending starts inside).mp together).trans same.symm)
    have exact_iff : lowered.lineAt position = some row.line.toUInt32 ↔
        ∀ other ∈ code.lines, AppliesWith offset offsets.length row other →
          row.line ≤ other.line := by
      rw [told, Option.some.injEq]
      constructor
      · intro line
        rwa [UInt16.toUInt32_inj.mp line] at least
      · intro smallest
        have first := smallest chosen prevails.member chosenTogether
        have second := least row last.member fun _ _ => Iff.rfl
        rw [UInt16.le_antisymm first second]
    refine ⟨⟨chosen, prevails.member, chosenTogether, least, told⟩, exact_iff,
      fun distinct aligned => ?_⟩
    refine exact_iff.mpr fun other member together => ?_
    obtain ⟨_, below, here⟩ := aligned row last.member
    obtain ⟨_, below', here'⟩ := aligned other member
    have start := together.start_eq below here below' here'
    rw [List.inj_on_of_nodup_map distinct last.member member start]
    exact UInt16.le_refl _

/-- An element of an array is read and dropped. The second of the instructions has two bytes. -/
def elementPlaced : List Placed :=
  [⟨0, [0x2a], .load .reference 0, []⟩, ⟨1, [0x15, 0x01], .load .int 1, []⟩,
    ⟨3, [0x2e], .arrayLoad .int, []⟩, ⟨4, [0x57], .stack .pop, []⟩, ⟨5, [0xb1], .ret none, []⟩]

def elementCode (lines : List LineRow) : Code where
  maxStack := 2
  maxLocals := 2
  bytes := [0x2a, 0x15, 0x01, 0x2e, 0x57, 0xb1]
  lines := lines

def element (lines : List LineRow) : ClassFile.Method where
  access := ⟨8⟩
  name := "get"
  descriptor := "([II)V"
  code := some (elementCode lines)

def loweredElement (lines : List LineRow) : Method where
  name := "get"
  descriptor := "([II)V"
  access := ⟨8⟩
  instructions := (elementPlaced.map Placed.instruction).toArray
  lines := (lineMarks lines (elementPlaced.map Placed.offset)).toArray

private theorem decodes_element (lines : List LineRow) :
    Decodes {} 0 (elementCode lines).bytes elementPlaced := by
  change Decodes {} 0
    ([0x2a] ++ ([0x15, 0x01] ++ ([0x2e] ++ ([0x57] ++ ([0xb1] ++ []))))) elementPlaced
  refine .cons ?_ (.cons ?_ (.cons ?_ (.cons ?_ (.cons ?_ .nil))))
  all_goals exact ⟨_, _, _, rfl, rfl, .operands rfl rfl rfl⟩

private theorem reaches_of_mem_element : ∀ item ∈ elementPlaced, item.Reaches := by
  simp [elementPlaced, Placed.Reaches, Instruction.targets]

private theorem ofClassFile_element (lines : List LineRow) :
    Method.ofClassFile {} (element lines) = .ok (loweredElement lines) :=
  (Method.ofClassFile_eq_ok_iff rfl).mpr
    ⟨elementPlaced, _, decodes_element lines, reaches_of_mem_element, rfl, rfl⟩

private theorem laidOut_element (lines : List LineRow) :
    LaidOut {} (elementCode lines).bytes (loweredElement lines).instructions
      (offsetAt elementPlaced 6) :=
  (decodes_element lines).laidOut reaches_of_mem_element rfl

/-- Rows out of order, one of which starts inside of the second instruction. -/
def insideRows : List LineRow := [⟨4, 9⟩, ⟨2, 7⟩, ⟨1, 5⟩]

/-- The row inside of the second instruction applies to the third one; no row applies to the
first. -/
theorem lineAt_insideRows :
    Method.ofClassFile {} (element insideRows) = .ok (loweredElement insideRows) ∧
      LaidOut {} (elementCode insideRows).bytes (loweredElement insideRows).instructions
        (offsetAt elementPlaced 6) ∧
      LastRow insideRows (offsetAt elementPlaced 6 2) ⟨2, 7⟩ ∧
      (loweredElement insideRows).lineAt 0 = none ∧
      (loweredElement insideRows).lineAt 2 = some 7 := by
  have last : LastRow insideRows (offsetAt elementPlaced 6 2) ⟨2, 7⟩ :=
    ⟨by decide, by decide, by decide⟩
  have success := ofClassFile_element insideRows
  have laidOut := laidOut_element insideRows
  have first : 0 < (loweredElement insideRows).instructions.size := by decide
  have third : 2 < (loweredElement insideRows).instructions.size := by decide
  obtain ⟨unknown, -⟩ := Method.lineAt_ofClassFile rfl success laidOut first
  obtain ⟨-, known⟩ := Method.lineAt_ofClassFile rfl success laidOut third
  obtain ⟨-, told, -⟩ := known _ last
  refine ⟨success, laidOut, last, unknown (by decide), told.mpr fun other member together => ?_⟩
  have apart : ¬other.start.toNat ≤ 1 := (not_congr (together 1 (by decide))).mp (by decide)
  have lines : ∀ other ∈ insideRows, ¬other.start.toNat ≤ 1 → 7 ≤ other.line := by decide
  exact lines other member apart

/-- Rows that start one byte apart. -/
def crowdedRows : List LineRow := [⟨0, 5⟩, ⟨2, 6⟩, ⟨3, 7⟩]

private theorem lineMarks_crowdedRows :
    lineMarks crowdedRows (elementPlaced.map Placed.offset) = [⟨0, 5⟩, ⟨2, 6⟩] := by
  have marks : crowdedRows.filterMap (markOf? (elementPlaced.map Placed.offset)) =
      [⟨0, 5⟩, ⟨2, 6⟩, ⟨2, 7⟩] := rfl
  rw [lineMarks, marks, List.mergeSort_of_pairwise (by decide)]
  rfl

/-- The third instruction, at the start of a row, has the line of the row before. -/
theorem lineAt_crowdedRows :
    Method.ofClassFile {} (element crowdedRows) = .ok (loweredElement crowdedRows) ∧
      LaidOut {} (elementCode crowdedRows).bytes (loweredElement crowdedRows).instructions
        (offsetAt elementPlaced 6) ∧
      (crowdedRows.map LineRow.start).Nodup ∧
      LastRow crowdedRows (offsetAt elementPlaced 6 2) ⟨3, 7⟩ ∧
      (loweredElement crowdedRows).lineAt 2 = some 6 := by
  refine ⟨ofClassFile_element _, laidOut_element _, by decide,
    ⟨by decide, by decide, by decide⟩, ?_⟩
  have lines : (loweredElement crowdedRows).lines.toList = [⟨0, 5⟩, ⟨2, 6⟩] := lineMarks_crowdedRows
  have ascending : LineMark.Ascending (loweredElement crowdedRows).lines.toList :=
    ascending_lineMarks _ _
  rw [Method.lineAt_eq ascending, lines]
  rfl

end ArrayBounds.Program
