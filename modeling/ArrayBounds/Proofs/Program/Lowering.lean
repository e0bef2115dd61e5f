import ArrayBounds.Program.Lowering
import ArrayBounds.Proofs.Program.Decoding
import ArrayBounds.Proofs.Sequences

/-! # Lowering keeps the code

A method can be lowered exactly if its code is a sequence of instructions whose displacements lead
to the first bytes of instructions, and the lowered instructions are those of the code, with
positions in place of offsets (`ArrayBounds.Program.Method.ofClassFile_exact`). What an instruction
is spelled by does not depend on its targets (`ArrayBounds.Program.Form.Spells.retarget`), so
replacing offsets by positions keeps the spelling.
-/

namespace ArrayBounds.Program

open ClassFile

/-! ## Targets of an instruction -/

/-- The instructions differ at most in where they jump to. -/
inductive Instruction.Retargets : Instruction → Instruction → Prop where
  | straight {instruction : Instruction} (straight : instruction.targets = []) :
      Retargets instruction instruction
  | branch (condition : Condition) (target target' : Nat) : Retargets (.branch condition target)
      (.branch condition target')
  | goto (target target' : Nat) : Retargets (.goto target) (.goto target')
  | switch (default default' : Nat) {targets targets' : List Nat}
      (same : targets'.length = targets.length) :
      Retargets (.switch default targets) (.switch default' targets')

/-- Targets are translated one by one, and the rest of the instruction stays. -/
private theorem Instruction.mapTargets_eq_ok_iff {ε : Type} {f : Nat → Except ε Nat}
    {instruction result : Instruction} :
    instruction.mapTargets f = .ok result ↔
      instruction.Retargets result ∧ instruction.targets.map f = result.targets.map .ok := by
  cases instruction with
  | branch condition target =>
      simp only [mapTargets, Except.bind_eq_ok_iff, Except.pure_eq_ok_iff]
      constructor
      · rintro ⟨target', found, rfl⟩
        exact ⟨.branch condition target target', by simp [targets, found]⟩
      · rintro ⟨retargets, same⟩
        cases retargets with
        | straight straight => cases straight
        | branch _ _ target' => exact ⟨target', (List.cons.inj same).1, rfl⟩
  | goto target =>
      simp only [mapTargets, Except.bind_eq_ok_iff, Except.pure_eq_ok_iff]
      constructor
      · rintro ⟨target', found, rfl⟩
        exact ⟨.goto target target', by simp [targets, found]⟩
      · rintro ⟨retargets, same⟩
        cases retargets with
        | straight straight => cases straight
        | goto _ target' => exact ⟨target', (List.cons.inj same).1, rfl⟩
  | switch default targets =>
      simp only [mapTargets, Except.bind_eq_ok_iff, Except.pure_eq_ok_iff, Except.mapM_eq_ok_iff]
      constructor
      · rintro ⟨default', found, targets', others, rfl⟩
        have same : targets'.length = targets.length := by
          simpa using (congrArg List.length others).symm
        exact ⟨.switch default default' same, by simp [Instruction.targets, found, others]⟩
      · rintro ⟨retargets, same⟩
        cases retargets with
        | straight straight => simp [Instruction.targets] at straight
        | @switch _ default' _ targets' long =>
            simp only [Instruction.targets, List.map_append] at same
            obtain ⟨others, found⟩ := List.append_inj same (by simpa using long.symm)
            exact ⟨default', (List.cons.inj found).1, targets', others, rfl⟩
  | _ =>
      constructor
      · intro success
        cases success
        exact ⟨.straight rfl, rfl⟩
      · rintro ⟨retargets, -⟩
        cases retargets
        rfl

/-- The spelling of an instruction does not depend on its targets. -/
theorem Form.Spells.retarget {pool : ConstantPool} {offset : Nat} {form : Form} {bytes : List UInt8}
    {instruction other : Instruction} {displacements : List Int}
    (spells : form.Spells pool offset bytes instruction displacements)
    (retargets : instruction.Retargets other) :
    form.Spells pool offset bytes other displacements := by
  induction spells with
  | operands long means straight =>
      cases retargets with
      | straight _ => exact .operands long means straight
      | switch default default' same => simp [Instruction.targets] at straight
      | _ => cases straight
  | wide long found _ ih => exact .wide long found (ih retargets)
  | branch long target =>
      cases retargets with
      | straight straight => cases straight
      | branch _ _ target' => exact .branch long target'
  | goto long target =>
      cases retargets with
      | straight straight => cases straight
      | goto _ target' => exact .goto long target'
  | tableSwitch default padded long count same =>
      cases retargets with
      | straight straight => simp [Instruction.targets] at straight
      | switch _ default' same' => exact .tableSwitch default' padded long count (same'.trans same)
  | lookupSwitch default padded long pairs count same =>
      cases retargets with
      | straight straight => simp [Instruction.targets] at straight
      | switch _ default' same' =>
          exact .lookupSwitch default' padded long pairs count (same'.trans same)

/-- Any targets may be chosen in place of those of an instruction. -/
theorem Instruction.exists_retargets {instruction : Instruction} {others : List Nat}
    (same : others.length = instruction.targets.length) :
    ∃ other, instruction.Retargets other ∧ other.targets = others := by
  cases instruction with
  | branch condition target =>
      obtain ⟨other, rfl⟩ := List.length_eq_one_iff.mp same
      exact ⟨_, .branch condition target other, rfl⟩
  | goto target =>
      obtain ⟨other, rfl⟩ := List.length_eq_one_iff.mp same
      exact ⟨_, .goto target other, rfl⟩
  | switch default targets =>
      have long : others.length = targets.length + 1 := by simpa [Instruction.targets] using same
      have some : others ≠ [] := List.ne_nil_of_length_eq_add_one long
      refine ⟨_, .switch default (others.getLast some) ?_, List.dropLast_append_getLast some⟩
      rw [List.length_dropLast, long, Nat.add_sub_cancel]
  | _ => exact ⟨_, .straight rfl, (List.length_eq_zero_iff.mp same).symm⟩

/-- An instruction is translated if all its targets are. -/
private theorem Instruction.exists_mapTargets {ε : Type} {f : Nat → Except ε Nat}
    {instruction : Instruction}
    (all : ∀ target ∈ instruction.targets, ∃ other, f target = .ok other) :
    ∃ result, instruction.mapTargets f = .ok result := by
  obtain ⟨others, found⟩ := Except.exists_map_ok all
  have same : others.length = instruction.targets.length := by
    simpa using (congrArg List.length found).symm
  obtain ⟨result, retargets, rfl⟩ := exists_retargets same
  exact ⟨result, mapTargets_eq_ok_iff.mpr ⟨retargets, found⟩⟩

/-- There are as many displacements as targets. -/
theorem Form.Spells.length_targets {pool : ConstantPool} {offset : Nat} {form : Form}
    {bytes : List UInt8} {instruction : Instruction} {displacements : List Int}
    (spells : form.Spells pool offset bytes instruction displacements) :
    displacements.length = instruction.targets.length := by
  induction spells with
  | operands long means straight => simp [straight]
  | wide long found _ ih => exact ih
  | branch long target => rfl
  | goto long target => rfl
  | tableSwitch default padded long count same => simp [Instruction.targets, same]
  | lookupSwitch default padded long pairs count same => simp [Instruction.targets, same]

/-! ## Positions -/

/-- A translated target is the instruction at the offset. -/
private theorem getElem?_of_positionOf {offsets : List Nat} {source target position : Nat}
    (found : positionOf offsets source target = .ok position) :
    offsets[position]? = some target := by
  unfold positionOf at found
  split at found
  case h_1 _ here =>
    cases found
    obtain ⟨below, same, -⟩ := List.idxOf?_eq_some_iff.mp here
    rw [List.getElem?_eq_getElem below, same]
  case h_2 => cases found

/-- Every offset of an instruction is translated. -/
private theorem exists_positionOf {offsets : List Nat} {target : Nat} (source : Nat)
    (here : target ∈ offsets) : ∃ position, positionOf offsets source target = .ok position := by
  unfold positionOf
  cases found : offsets.idxOf? target with
  | none => exact absurd here (List.idxOf?_eq_none_iff.mp found)
  | some position => exact ⟨position, rfl⟩

/-! ## Reading instructions -/

namespace Placed

/-- The targets of the instruction are offsets of the code, as far away as the displacements say. -/
def Reaches (placed : Placed) : Prop :=
  placed.instruction.targets.map Int.ofNat = placed.displacements.map ((placed.offset : Int) + ·)

end Placed

variable {pool : ConstantPool}

private theorem Spells.ne_nil {offset : Nat} {bytes : List UInt8} {instruction : Instruction}
    {displacements : List Int} (spells : Spells pool offset bytes instruction displacements) :
    bytes ≠ [] := by
  obtain ⟨opcode, operands, form, rfl, -⟩ := spells
  simp

/-- No bytes are no instructions. -/
private theorem decodes_nil_iff {offset : Nat} {placed : List Placed} :
    Decodes pool offset [] placed ↔ placed = [] := by
  constructor
  · intro decodes
    generalize same : ([] : List UInt8) = bytes at decodes
    cases decodes with
    | nil => rfl
    | cons spells decodes => exact absurd (List.append_eq_nil_iff.mp same.symm).1 spells.ne_nil
  · rintro rfl
    exact .nil

/-- The instructions that are read are those that the code spells, with the targets that it leads
to. -/
theorem readInstructions_eq_ok_iff {method : String} {bound offset : Nat} {bytes : List UInt8}
    (enough : bytes.length ≤ bound) {read : List (Nat × Instruction)} :
    readInstructions pool method bound ⟨bytes, offset⟩ = .ok read ↔
      ∃ placed, Decodes pool offset bytes placed ∧ (∀ item ∈ placed, item.Reaches) ∧
        read = placed.map fun item => (item.offset, item.instruction) := by
  have none (offset : Nat) (read : List (Nat × Instruction)) : [] = read ↔
      ∃ placed, Decodes pool offset [] placed ∧ (∀ item ∈ placed, item.Reaches) ∧
        read = placed.map fun item => (item.offset, item.instruction) := by
    simp [decodes_nil_iff, eq_comm]
  induction bound generalizing bytes offset read with
  | zero =>
      obtain rfl := List.length_eq_zero_iff.mp (Nat.le_zero.mp enough)
      rw [readInstructions, Except.pure_eq_ok_iff]
      exact none offset read
  | succ bound ih =>
      rw [readInstructions]
      split
      case isTrue done =>
        obtain rfl : bytes = [] := List.isEmpty_iff.mp done
        rw [Except.pure_eq_ok_iff]
        exact none offset read
      case isFalse more =>
        simp only [Except.bind_eq_ok_iff, Except.pure_eq_ok_iff]
        constructor
        · rintro ⟨⟨instruction, ⟨rest, position⟩⟩, first, later, others, rfl⟩
          obtain ⟨taken, split, moved, displacements, spells, reached⟩ :=
            Site.exact_instruction.eq_ok_iff.mp first
          dsimp only at split moved spells reached
          subst split moved
          have shorter : rest.length ≤ bound := by
            have := List.length_pos_of_ne_nil spells.ne_nil
            rw [List.length_append] at enough
            omega
          obtain ⟨placed, decodes, all, rfl⟩ := (ih shorter).mp others
          refine ⟨⟨offset, taken, instruction, displacements⟩ :: placed,
            .cons spells decodes, ?_, rfl⟩
          simp only [List.mem_cons, forall_eq_or_imp]
          exact ⟨reached, all⟩
        · rintro ⟨placed, decodes, all, rfl⟩
          cases decodes with
          | nil => simp at more
          | @cons _ taken rest instruction displacements placed spells decodes =>
              simp only [List.mem_cons, forall_eq_or_imp] at all
              have shorter : rest.length ≤ bound := by
                have := List.length_pos_of_ne_nil spells.ne_nil
                rw [List.length_append] at enough
                omega
              refine ⟨(instruction, ⟨rest, offset + taken.length⟩), ?_, _,
                (ih shorter).mpr ⟨placed, decodes, all.2, rfl⟩, rfl⟩
              exact Site.exact_instruction.eq_ok_iff.mpr
                ⟨taken, rfl, rfl, displacements, spells, all.1⟩

/-! ## Where the instructions stand -/

/-- The offset at which the instruction at a position stands, and the end of the code for positions
behind all instructions. -/
def offsetAt (placed : List Placed) (stop position : Nat) : Nat :=
  (placed[position]?.map Placed.offset).getD stop

/-- Bytes behind the front are those of the rest. -/
private theorem extract_append_right {front rest : List UInt8} {offset start stop : Nat}
    (behind : offset + front.length ≤ start) :
    (front ++ rest).extract (start - offset) (stop - offset) =
      rest.extract (start - (offset + front.length)) (stop - (offset + front.length)) := by
  rw [List.extract_eq_take_drop, List.extract_eq_take_drop, List.drop_append,
    List.drop_eq_nil_of_le (by omega), List.nil_append]
  congr 1
  · omega
  · congr 1
    omega

namespace Decodes

variable {offset : Nat} {bytes : List UInt8} {placed : List Placed}

/-- The first instruction starts where the code does. -/
private theorem offsetAt_zero (decodes : Decodes pool offset bytes placed) :
    offsetAt placed (offset + bytes.length) 0 = offset := by
  cases decodes with
  | nil => rfl
  | cons spells decodes => rfl

/-- An instruction is spelled by the bytes from its own offset up to that of the next one. -/
theorem spelled (decodes : Decodes pool offset bytes placed) {position : Nat} {item : Placed}
    (found : placed[position]? = some item) :
    offset ≤ item.offset ∧ item.offset < offsetAt placed (offset + bytes.length) (position + 1) ∧
      Spells pool item.offset
        (bytes.extract (item.offset - offset)
          (offsetAt placed (offset + bytes.length) (position + 1) - offset))
        item.instruction item.displacements := by
  induction decodes generalizing position with
  | nil => simp at found
  | @cons offset taken rest instruction displacements placed spells decodes ih =>
      have far : offset + (taken ++ rest).length = offset + taken.length + rest.length := by
        rw [List.length_append, Nat.add_assoc]
      cases position with
      | zero =>
          cases found
          have next : offsetAt (⟨offset, taken, instruction, displacements⟩ :: placed)
              (offset + (taken ++ rest).length) 1 =
              offset + taken.length := by
            rw [far]
            exact decodes.offsetAt_zero
          have := List.length_pos_of_ne_nil spells.ne_nil
          rw [next]
          refine ⟨Nat.le_refl _, by dsimp only; omega, ?_⟩
          simpa using spells
      | succ position =>
          have found : placed[position]? = some item := found
          obtain ⟨after, before, spelled⟩ := ih found
          have next : offsetAt (⟨offset, taken, instruction, displacements⟩ :: placed)
              (offset + (taken ++ rest).length)
              (position + 1 + 1) = offsetAt placed (offset + taken.length + rest.length)
              (position + 1) := by
            rw [far]
            rfl
          rw [next]
          refine ⟨by omega, before, ?_⟩
          rwa [extract_append_right after]

/-- The targets can be chosen as the displacements say, if these lead to offsets. -/
theorem resolve (decodes : Decodes pool offset bytes placed)
    (reachable : ∀ item ∈ placed, ∀ displacement ∈ item.displacements,
      0 ≤ (item.offset : Int) + displacement) :
    ∃ resolved, Decodes pool offset bytes resolved ∧ (∀ item ∈ resolved, item.Reaches) ∧
      (resolved.map fun item => (item.offset, item.displacements)) = placed.map
        fun item => (item.offset, item.displacements) := by
  induction decodes with
  | nil => exact ⟨[], .nil, by simp, rfl⟩
  | @cons offset taken rest instruction displacements placed spells decodes ih =>
      simp only [List.mem_cons, forall_eq_or_imp] at reachable
      obtain ⟨resolved, decodes', all, same⟩ := ih reachable.2
      obtain ⟨opcode, operands, form, rfl, known, spells⟩ := spells
      have long :
          (displacements.map fun displacement => ((offset : Int) + displacement).toNat).length =
          instruction.targets.length := by
        rw [List.length_map, spells.length_targets]
      obtain ⟨other, retargets, targets⟩ := Instruction.exists_retargets long
      refine ⟨⟨offset, opcode :: operands, other, displacements⟩ :: resolved,
        .cons ⟨opcode, operands, form, rfl, known, spells.retarget retargets⟩ decodes', ?_, ?_⟩
      · simp only [List.mem_cons, forall_eq_or_imp]
        refine ⟨?_, all⟩
        unfold Placed.Reaches
        rw [targets, List.map_map]
        exact List.map_congr_left fun displacement member =>
          Int.toNat_of_nonneg (reachable.1 displacement member)
      · rw [List.map_cons, List.map_cons, same]

end Decodes

/-! ## Lowering -/

/-- The instructions of a lowered method are those that its code spells, with offsets replaced by
positions. -/
theorem Method.ofClassFile_eq_ok_iff {method : ClassFile.Method} {code : Code}
    (body : method.code = some code) {lowered : Method} :
    Method.ofClassFile pool method = .ok lowered ↔
      ∃ (placed : List Placed) (instructions : List Instruction),
        Decodes pool 0 code.bytes placed ∧ (∀ item ∈ placed, item.Reaches) ∧
        (placed.map fun item =>
          item.instruction.mapTargets (positionOf (placed.map Placed.offset) item.offset)) =
          instructions.map .ok ∧
        lowered = {
          name := method.name, descriptor := method.descriptor, access := method.access
          instructions := instructions.toArray
          lines := (lineMarks code.lines (placed.map Placed.offset)).toArray } := by
  unfold Method.ofClassFile
  rw [body]
  simp only [Except.bind_eq_ok_iff, Except.pure_eq_ok_iff, Except.mapM_eq_ok_iff,
    readInstructions_eq_ok_iff (Nat.le_refl _)]
  constructor
  · rintro ⟨_, ⟨placed, decodes, all, rfl⟩, instructions, resolved, rfl⟩
    simp only [List.map_map] at resolved ⊢
    exact ⟨placed, instructions, decodes, all, resolved, rfl⟩
  · rintro ⟨placed, instructions, decodes, all, resolved, rfl⟩
    refine ⟨_, ⟨placed, decodes, all, rfl⟩, instructions, ?_, ?_⟩
    · simp only [List.map_map]
      exact resolved
    · simp only [List.map_map]
      rfl

/-- Instructions start at the offsets that are listed for them. -/
private theorem offsetAt_of_getElem? {placed : List Placed} {position offset : Nat} (stop : Nat)
    (found : (placed.map Placed.offset)[position]? = some offset) :
    position < placed.length ∧ offsetAt placed stop position = offset := by
  rw [List.getElem?_map] at found
  obtain ⟨item, here, rfl⟩ := Option.map_eq_some_iff.mp found
  refine ⟨(List.getElem?_eq_some_iff.mp here).1, ?_⟩
  rw [offsetAt, here]
  rfl

namespace Placed

variable {placed : List Placed}

/-- The instruction as it comes out of lowering. -/
def Lowers (placed : List Placed) (item : Placed) (instruction : Instruction) : Prop :=
  item.instruction.mapTargets (positionOf (placed.map Placed.offset) item.offset) = .ok instruction

/-- A displacement leads to the start of an instruction. -/
private theorem exists_target {item : Placed} {instruction : Instruction} (reached : item.Reaches)
    (lowers : Lowers placed item instruction) {displacement : Int}
    (encoded : displacement ∈ item.displacements) :
    ∃ target ∈ placed, (target.offset : Int) = item.offset + displacement := by
  obtain ⟨-, same⟩ := Instruction.mapTargets_eq_ok_iff.mp lowers
  have member : (item.offset : Int) + displacement ∈ item.instruction.targets.map Int.ofNat := by
    rw [reached]
    exact List.mem_map_of_mem encoded
  obtain ⟨offset, member, far⟩ := List.mem_map.mp member
  obtain ⟨position, -, found⟩ := Except.exists_result_of_map_ok same member
  obtain ⟨target, here, rfl⟩ :=
    List.mem_map.mp (List.mem_of_getElem? (getElem?_of_positionOf found))
  exact ⟨target, here, far⟩

/-- An instruction is lowered if its displacements lead to instructions. -/
private theorem exists_lowers {item : Placed} (reached : item.Reaches)
    (lands : ∀ displacement ∈ item.displacements, ∃ offset ∈ placed.map Placed.offset,
      (offset : Int) = item.offset + displacement) :
    ∃ instruction, Lowers placed item instruction := by
  refine Instruction.exists_mapTargets fun target member => exists_positionOf _ ?_
  have far : Int.ofNat target ∈ item.displacements.map ((item.offset : Int) + ·) := by
    rw [← reached]
    exact List.mem_map_of_mem member
  obtain ⟨displacement, encoded, far⟩ := List.mem_map.mp far
  obtain ⟨offset, here, same⟩ := lands displacement encoded
  obtain rfl : offset = target := Int.ofNat_inj.mp (same.trans far)
  exact here

/-- The targets of a lowered instruction are where its displacements lead. -/
private theorem targets_of_lowers {item : Placed} {instruction : Instruction}
    (reached : item.Reaches) (lowers : Lowers placed item instruction) (stop : Nat) :
    (∀ target ∈ instruction.targets, target < placed.length) ∧
      (instruction.targets.map fun target => (offsetAt placed stop target : Int)) =
        item.displacements.map ((item.offset : Int) + ·) := by
  obtain ⟨-, same⟩ := Instruction.mapTargets_eq_ok_iff.mp lowers
  constructor
  · intro target member
    obtain ⟨offset, -, found⟩ := Except.exists_item_of_map_ok same member
    exact (offsetAt_of_getElem? stop (getElem?_of_positionOf found)).1
  · have back : instruction.targets.map (offsetAt placed stop) = item.instruction.targets :=
      Except.map_eq_of_map_ok same fun found =>
        (offsetAt_of_getElem? stop (getElem?_of_positionOf found)).2
    rw [← reached, ← back, List.map_map]
    rfl

end Placed

/-- Every displacement leads to the first byte of an instruction. -/
def Lands (placed : List Placed) : Prop :=
  ∀ source ∈ placed, ∀ displacement ∈ source.displacements, ∃ target ∈ placed,
    (target.offset : Int) = source.offset + displacement

/-- The instructions come from the code, one behind the other. Each is spelled by the bytes from its
own offset up to that of the next one, and its targets are the positions of the instructions that
its displacements lead to. -/
structure LaidOut (pool : ConstantPool) (code : List UInt8) (instructions : Array Instruction)
    (offset : Nat → Nat) :
    Prop where
  start : offset 0 = 0
  stop : offset instructions.size = code.length
  ascends : ∀ position < instructions.size, offset position < offset (position + 1)
  spelled : ∀ (position : Nat) (below : position < instructions.size), ∃ displacements,
    Spells pool (offset position) (code.extract (offset position) (offset (position + 1)))
    instructions[position] displacements ∧
    (∀ target ∈ instructions[position].targets, target < instructions.size) ∧
    (instructions[position].targets.map fun target => (offset target : Int)) =
      displacements.map ((offset position : Int) + ·)

/-- Instructions whose targets are turned into positions are laid out in the code. -/
theorem Decodes.laidOut {code : List UInt8} {placed : List Placed} {instructions : List Instruction}
    (decodes : Decodes pool 0 code placed) (reached : ∀ item ∈ placed, item.Reaches)
    (resolved :
      (placed.map fun item =>
        item.instruction.mapTargets (positionOf (placed.map Placed.offset) item.offset)) =
        instructions.map .ok) :
    LaidOut pool code instructions.toArray (offsetAt placed code.length) := by
  have size : instructions.length = placed.length := by
    simpa using (congrArg List.length resolved).symm
  have found {position : Nat} (below : position < instructions.length) : ∃ item,
      placed[position]? = some item ∧
      item ∈ placed ∧ offsetAt placed code.length position = item.offset ∧
        Placed.Lowers placed item instructions[position] := by
    have here : placed[position]? = some placed[position] := List.getElem?_eq_getElem (size ▸ below)
    have lowers := congrArg (·[position]?) resolved
    simp only [List.getElem?_map, here, List.getElem?_eq_getElem below, Option.map_some,
      Option.some.injEq] at lowers
    refine ⟨_, here, List.mem_of_getElem? here, ?_, lowers⟩
    rw [offsetAt, here]
    rfl
  constructor
  case start => simpa using decodes.offsetAt_zero
  case stop => simp [offsetAt, size]
  case ascends =>
    intro position below
    obtain ⟨item, here, -, same, -⟩ := found (by simpa using below)
    obtain ⟨-, before, -⟩ := decodes.spelled here
    rw [Nat.zero_add] at before
    rwa [same]
  case spelled =>
    intro position below
    obtain ⟨item, here, member, same, lowers⟩ := found (by simpa using below)
    obtain ⟨retargets, -⟩ := Instruction.mapTargets_eq_ok_iff.mp lowers
    obtain ⟨inside, far⟩ := Placed.targets_of_lowers (reached item member) lowers code.length
    obtain ⟨-, -, opcode, operands, form, split, known, spells⟩ := decodes.spelled here
    simp only [Nat.zero_add, Nat.sub_zero] at split
    rw [same]
    refine ⟨item.displacements, ⟨opcode, operands, form, split, known, spells.retarget retargets⟩,
      ?_, far⟩
    simpa [size] using inside

/-- The code of a method can be lowered exactly if it is a sequence of instructions whose
displacements lead to the first bytes of instructions, and lowering keeps these instructions and
their targets. -/
theorem Method.ofClassFile_exact {method : ClassFile.Method} {code : Code}
    (body : method.code = some code) :
    ((∃ lowered, Method.ofClassFile pool method = .ok lowered) ↔
      ∃ placed, Decodes pool 0 code.bytes placed ∧ Lands placed) ∧
      ∀ lowered, Method.ofClassFile pool method = .ok lowered →
        ∃ offset, LaidOut pool code.bytes lowered.instructions offset := by
  simp only [ofClassFile_eq_ok_iff body]
  refine ⟨⟨?_, ?_⟩, ?_⟩
  · rintro ⟨_, placed, instructions, decodes, reached, resolved, -⟩
    refine ⟨placed, decodes, fun source member displacement encoded => ?_⟩
    obtain ⟨instruction, -, lowers⟩ := Except.exists_result_of_map_ok resolved member
    exact Placed.exists_target (reached source member) lowers encoded
  · rintro ⟨placed, decodes, lands⟩
    have reachable : ∀ item ∈ placed, ∀ displacement ∈ item.displacements,
        0 ≤ (item.offset : Int) + displacement := by
      intro item member displacement encoded
      obtain ⟨target, -, same⟩ := lands item member displacement encoded
      omega
    obtain ⟨resolved, decodes', reached, same⟩ := decodes.resolve reachable
    have offsets := (congrArg (List.map Prod.fst) same).symm
    rw [List.map_map, List.map_map] at offsets
    change placed.map Placed.offset = resolved.map Placed.offset at offsets
    have lowers : ∀ item ∈ resolved, ∃ instruction, Placed.Lowers resolved item instruction := by
      intro item member
      refine Placed.exists_lowers (reached item member) fun displacement encoded => ?_
      have known : (item.offset, item.displacements) ∈ placed.map
          fun item => (item.offset, item.displacements) :=
        same ▸ List.mem_map_of_mem member
      obtain ⟨source, member', same'⟩ := List.mem_map.mp known
      obtain ⟨sameOffset, sameDisplacements⟩ := Prod.mk.inj same'
      obtain ⟨target, here, far⟩ := lands source member' displacement (sameDisplacements ▸ encoded)
      exact ⟨target.offset, offsets ▸ List.mem_map_of_mem here, sameOffset ▸ far⟩
    obtain ⟨instructions, resolved'⟩ := Except.exists_map_ok lowers
    exact ⟨_, resolved, instructions, decodes', reached, resolved', rfl⟩
  · rintro _ ⟨placed, instructions, decodes, reached, resolved, rfl⟩
    exact ⟨_, decodes.laidOut reached resolved⟩

/-- A switch that starts over in its first case. -/
def switchingCode : Code where
  maxStack := 1
  maxLocals := 2
  bytes := [
    0x1b,
    0xaa, 0x00, 0x00, 0x00, 0x00, 0x00, 0x17, 0x00, 0x00, 0x00, 0x00, 0x00, 0x00, 0x00, 0x01, 0xff,
    0xff, 0xff, 0xff, 0x00, 0x00, 0x00, 0x17,
    0xb1]

def switching : ClassFile.Method where
  access := ⟨0⟩
  name := "choose"
  descriptor := "(I)V"
  code := some switchingCode

/-- The switch goes back to the first instruction in its first case, and on to the third one
else. -/
theorem switching_exact :
    ∃ lowered offset, Method.ofClassFile {} switching = .ok lowered ∧
      lowered.instructions[1]? = some (.switch 2 [0, 2]) ∧
      LaidOut {} switchingCode.bytes lowered.instructions offset ∧
        ∃ placed, Decodes {} 0 switchingCode.bytes placed ∧ Lands placed := by
  have success : Method.ofClassFile {} switching = .ok {
      name := "choose", descriptor := "(I)V", access := ⟨0⟩
      instructions := #[.load .int 1, .switch 2 [0, 2], .ret none] } := by
    decide +kernel
  obtain ⟨decodes, keeps⟩ := @Method.ofClassFile_exact {} switching switchingCode rfl
  obtain ⟨offset, laidOut⟩ := keeps _ success
  exact ⟨_, offset, success, rfl, laidOut, decodes.mp ⟨_, success⟩⟩

end ArrayBounds.Program
