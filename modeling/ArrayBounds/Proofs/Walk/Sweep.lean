import ArrayBounds.Proofs.Domain.Control

/-! # The positions that a walk visits

A walk through a method visits the same positions whatever the values in its frames are: they are
determined by the instructions alone, and by whether loops are repeated at all.
`ArrayBounds.Sweep.run` computes them, together with the control part of the frame at the end of the
walk.

A sweep goes from each instruction that is not a return to the next one, if that is still in its
range (`ArrayBounds.Sweep.Covers`). Where a forward branch has been passed, the sweep goes on behind
everything that was visited on its arms.
-/

namespace ArrayBounds

open Program

/-- The outcome of a sweep through a range. -/
structure Sweep where
  /-- The control part at the end. -/
  control : Control
  visited : List Nat := []
deriving DecidableEq, Repr

namespace Sweep

/-- What a sweep does at one instruction. -/
structure Hop where
  control : Control
  /-- The positions visited on the arms of a branch and in loops. -/
  visited : List Nat := []
  /-- The position to go on at; absent where the path ends. -/
  next : Option Nat
deriving DecidableEq, Repr

/-- A sweep through the instructions from `first` to `last`; absent if it does not come to an
end. -/
abbrev Sweeper := (first last : Nat) → Control → Option Sweep

/-- The positions visited by repeating a range, if it is repeated at all. All passes visit the same
positions. -/
def repeated (passes : Nat) (sweep : Sweeper) (first last : Nat) (c : Control) :
    Option (List Nat) :=
  if passes = 0 then some [] else (sweep first last c.fork).map (·.visited)

/-- Goes on behind two paths that meet. -/
def meet (target : Nat) (taken through : Control) (visited : List Nat) : Hop :=
  { control := taken.join through, visited,
    next := some (max ((taken.join through).pc + 1) target) }

/-- The loop behind a path that ends in a jump back to `pc` or before. -/
def closing (passes : Nat) (sweep : Sweeper) (pc last : Nat) (c : Control) : Option (List Nat) :=
  match c.pendingJump with
  | some back => if back ≤ pc then repeated passes sweep back (min (c.pc - 1) last) c else some []
  | none => some []

/-- The arm of a branch that starts at its target, if the other arm jumps to `meeting`. -/
def takenArm (passes : Nat) (sweep : Sweeper) (target meeting last : Nat) (c : Control) :
    Option Sweep :=
  (if target < meeting then sweep target (min (meeting - 1) last) c.fork
    else some { control := c.fork }).bind
    fun arm => (closing passes sweep c.pc last arm.control).map fun again =>
      { arm with visited := arm.visited ++ again }

/-- A sweep at a branch forwards, after the arm behind it. -/
def forward (passes : Nat) (sweep : Sweeper) (last target : Nat) (c : Control) (through : Sweep) :
    Option Hop :=
  match through.control.pendingJump with
  | none => some (meet target c through.control through.visited)
  | some meeting =>
    if c.pc < meeting then
      (takenArm passes sweep target meeting last c).map fun arm =>
        meet target arm.control through.control (through.visited ++ arm.visited)
    else
      (repeated passes sweep meeting (min (through.control.pc - 1) last) through.control).map
        fun again =>
          meet target c through.control (through.visited ++ again)

/-- A sweep at a branch. -/
def branch (passes : Nat) (sweep : Sweeper) (last target : Nat) (c : Control) : Option Hop :=
  if target ≤ c.pc then
    (if target < c.pc then repeated passes sweep target (c.pc - 1) c else some []).map fun again =>
      { control := c, visited := again, next := some (c.pc + 1) }
  else
    (sweep (c.pc + 1) (min (target - 1) last) c.fork).bind (forward passes sweep last target c)

/-- A sweep at an instruction. -/
def step (passes : Nat) (sweep : Sweeper) (last : Nat) (instruction : Instruction) (c : Control) :
    Option Hop :=
  match instruction with
  | .branch _ target => branch passes sweep last target c
  | .throw | .unsupported _ => none
  | .ret _ => some { control := c, next := none }
  | instruction => some { control := c.after instruction, next := some (c.pc + 1) }

/-- Goes on after a hop. -/
def follow (sweep : Sweeper) (last : Nat) (hop : Hop) : Option Sweep :=
  match hop.next with
  | some position => sweep position last hop.control
  | none => some { control := hop.control }

/-- Sweeps through the instructions from `pc` to `last`, in at most `fuel` steps. -/
def run (instructions : Array Instruction) (passes : Nat) : (fuel : Nat) → Sweeper
  | fuel, pc, last, c =>
    match instructions[pc]? with
    | none => some { control := c }
    | some instruction =>
      if last < pc then some { control := c }
      else
        match fuel with
        | 0 => none
        | fuel + 1 =>
          (step passes (run instructions passes fuel) last instruction { c with pc }).bind
            fun hop =>
              (follow (run instructions passes fuel) last hop).map fun rest =>
                { rest with visited := pc :: (hop.visited ++ rest.visited) }

/-- A sweep goes on behind every instruction that is neither a branch nor a return. -/
theorem step_proceeds {passes : Nat} {sweep : Sweeper} {last : Nat}
    {instruction : Instruction} {c : Control} (proceeds : instruction.proceeds = true) :
    step passes sweep last instruction c =
      some { control := c.after instruction, next := some (c.pc + 1) } := by
  cases instruction with
  | branch | ret | throw | unsupported => cases proceeds
  | _ => rfl

/-- A sweep through an empty range visits nothing. -/
theorem run_empty {instructions : Array Instruction} {passes fuel first last : Nat} {c : Control}
    (empty : last < first ∨ instructions.size ≤ first) :
    run instructions passes fuel first last c = some { control := c } := by
  unfold run
  split
  · rfl
  · rename_i instruction found
    obtain ⟨inside, -⟩ := Array.getElem?_eq_some_iff.mp found
    rw [if_pos (by omega)]

/-- A sweep visits the first position of its range and goes on from there. -/
theorem run_step {instructions : Array Instruction} {passes fuel first last : Nat} {c : Control}
    {instruction : Instruction} {hop : Hop} {rest : Sweep}
    (found : instructions[first]? = some instruction) (reach : first ≤ last)
    (hopped : step passes (run instructions passes fuel) last instruction { c with pc := first } =
      some hop) (followed : follow (run instructions passes fuel) last hop = some rest) :
    run instructions passes (fuel + 1) first last c =
      some { rest with visited := first :: (hop.visited ++ rest.visited) } := by
  rw [run]
  simp only [found, Nat.not_lt_of_le reach, ↓reduceIte, hopped, Option.bind_some, followed,
    Option.map_some]

/-! ## Nothing is left out but behind returns -/

variable {instructions : Array Instruction}

/-- The path does not end at this position. -/
def Continues (instructions : Array Instruction) (position : Nat) : Prop :=
  ∀ kind, instructions[position]? ≠ some (.ret kind)

/-- A sweep through a range visits its start, and from each instruction but a return the next one.
It ends at the last position that it has visited. -/
structure Covers (instructions : Array Instruction) (first last : Nat) (s : Sweep) : Prop where
  first_mem : first ∈ s.visited
  pc_mem : s.control.pc ∈ s.visited
  pc_le_last : s.control.pc ≤ last
  pc_lt_size : s.control.pc < instructions.size
  le_pc : ∀ i ∈ s.visited, i ≤ s.control.pc
  succ_mem : ∀ i ∈ s.visited, Continues instructions i → i < last → i + 1 < instructions.size →
    i + 1 ∈ s.visited

/-- A sweep covers each range that is not empty, and does nothing in one that is. -/
def IsThorough (instructions : Array Instruction) (sweep : Sweeper) : Prop :=
  ∀ first last c s, sweep first last c = some s →
    (first ≤ last → first < instructions.size → Covers instructions first last s) ∧
      (last < first ∨ instructions.size ≤ first → s = { control := c })

/-- A hop from `pc` covers the arms and loops there, up to the position where it goes on. -/
structure Hop.Covers (instructions : Array Instruction) (pc last : Nat) (hop : Hop) : Prop where
  pc_mem : hop.control.pc ∈ pc :: hop.visited
  pc_le_last : hop.control.pc ≤ last
  pc_lt_size : hop.control.pc < instructions.size
  le_pc : ∀ i ∈ pc :: hop.visited, i ≤ hop.control.pc
  lt_next : ∀ position, hop.next = some position → hop.control.pc < position
  succ_mem : ∀ i ∈ pc :: hop.visited, Continues instructions i → i < last →
    i + 1 < instructions.size → i + 1 ∈ pc :: hop.visited ∨ hop.next = some (i + 1)

/-- Repeating a range visits positions of the range only, and from each instruction but a return the
next one, except from the end of the range. -/
theorem IsThorough.repeated {sweep : Sweeper} (thorough : IsThorough instructions sweep)
    {passes first last : Nat} {c : Control} {visited : List Nat}
    (done : repeated passes sweep first last c = some visited) :
    ∀ i ∈ visited, i ≤ last ∧
      (Continues instructions i → i + 1 < instructions.size → i + 1 ∈ visited ∨ i = last) := by
  intro i member
  unfold Sweep.repeated at done
  split at done
  · cases done
    simp at member
  · obtain ⟨s, swept, rfl⟩ := Option.map_eq_some_iff.mp done
    by_cases live : first ≤ last ∧ first < instructions.size
    · have covers := (thorough _ _ _ _ swept).1 live.1 live.2
      have bound : i ≤ last := Nat.le_trans (covers.le_pc i member) covers.pc_le_last
      refine ⟨bound, fun continues inside => ?_⟩
      by_cases early : i < last
      · exact .inl (covers.succ_mem i member continues early inside)
      · exact .inr (by omega)
    · have nothing := (thorough _ _ _ _ swept).2 (by omega)
      rw [nothing] at member
      simp at member

/-- Where the paths of a forward branch meet. Everything visited on the arms lies before the
position to go on at, and the arms leave only that position open. -/
theorem meet_covers {pc last target : Nat} {taken through : Control} {visited : List Nat}
    (inside : pc < instructions.size) (reach : pc ≤ last) (forward : pc < target)
    (taken_mem : taken.pc ∈ pc :: visited) (through_mem : through.pc ∈ pc :: visited)
    (bounds : ∀ i ∈ visited, i ≤ last ∧ i < instructions.size ∧ i ≤ max taken.pc through.pc)
    (after : pc ≤ max taken.pc through.pc)
    (succ_mem : ∀ i ∈ pc :: visited, Continues instructions i → i < last →
      i + 1 < instructions.size → i + 1 ∈ pc :: visited ∨
      i + 1 = max (max taken.pc through.pc + 1) target) :
    (meet target taken through visited).Covers instructions pc last := by
  have later_mem : max taken.pc through.pc ∈ pc :: visited := by
    rcases Nat.le_total taken.pc through.pc with order | order
    · rw [Nat.max_eq_right order]
      exact through_mem
    · rw [Nat.max_eq_left order]
      exact taken_mem
  have later_bounds : max taken.pc through.pc ≤ last ∧
      max taken.pc through.pc < instructions.size := by
    rcases List.mem_cons.mp later_mem with same | member
    · rw [same]
      exact ⟨reach, inside⟩
    · exact ⟨(bounds _ member).1, (bounds _ member).2.1⟩
  refine ⟨later_mem, later_bounds.1, later_bounds.2, ?_, ?_, ?_⟩
  · intro i member
    rcases List.mem_cons.mp member with rfl | member
    · exact after
    · exact (bounds i member).2.2
  · intro position same
    simp only [meet, Control.join, Option.some.injEq] at same ⊢
    omega
  · intro i member continues early fits
    simp only [meet, Control.join, Option.some.injEq]
    exact (succ_mem i member continues early fits).imp_right Eq.symm

/-- The loop that a jump at `jump` closes: it lies before the jump and leaves only the jump open. -/
theorem IsThorough.repeated_before {sweep : Sweeper} (thorough : IsThorough instructions sweep)
    {passes first last jump : Nat} {c : Control} {visited : List Nat} (positive : 0 < jump)
    (reach : jump ≤ last)
    (done : Sweep.repeated passes sweep first (min (jump - 1) last) c = some visited) :
    ∀ i ∈ visited, i < jump ∧ (Continues instructions i → i + 1 < instructions.size →
      i + 1 ∈ visited ∨ i + 1 = jump) := by
  intro i member
  obtain ⟨bound, next⟩ := thorough.repeated done i member
  refine ⟨by omega, fun continues fits => (next continues fits).imp_right ?_⟩
  intro same
  omega

/-- What the arm behind a forward branch visits lies before the target, and it leaves only the
target open. -/
theorem IsThorough.through {sweep : Sweeper} (thorough : IsThorough instructions sweep)
    {target last : Nat} {c : Control} {s : Sweep} (forward : c.pc < target)
    (swept : sweep (c.pc + 1) (min (target - 1) last) c.fork = some s) :
    s.control.pc ∈ c.pc :: s.visited ∧
      (s.control.pendingJump.isSome → s.control.pc ∈ s.visited ∧ c.pc < s.control.pc) ∧
      c.pc ≤ s.control.pc ∧ s.control.pc < target ∧
      (∀ i ∈ s.visited, i ≤ last ∧ i < instructions.size ∧ i ≤ s.control.pc) ∧
      ∀ i ∈ c.pc :: s.visited, Continues instructions i → i < last → i + 1 < instructions.size →
        i + 1 ∈ s.visited ∨ i + 1 = target := by
  by_cases live : c.pc + 1 ≤ min (target - 1) last ∧ c.pc + 1 < instructions.size
  · have covers := (thorough _ _ _ _ swept).1 live.1 live.2
    have first_le := covers.le_pc _ covers.first_mem
    have pc_le := covers.pc_le_last
    have pc_lt := covers.pc_lt_size
    refine ⟨List.mem_cons_of_mem _ covers.pc_mem,
      fun _ => ⟨covers.pc_mem, by omega⟩, by omega, by omega, ?_, ?_⟩
    · intro i member
      have bound := covers.le_pc i member
      omega
    · intro i member continues early fits
      rcases List.mem_cons.mp member with rfl | member
      · exact .inl covers.first_mem
      · by_cases inner : i < min (target - 1) last
        · exact .inl (covers.succ_mem i member continues inner fits)
        · have bound := covers.le_pc i member
          exact .inr (by omega)
  · obtain rfl := (thorough _ _ _ _ swept).2 (by omega)
    refine ⟨List.mem_cons_self, ?_, Nat.le_refl _, forward, ?_, ?_⟩
    · intro pending
      cases pending
    · intro i member
      cases member
    · intro i member continues early fits
      obtain rfl := List.mem_singleton.mp member
      exact .inr (by omega)

/-- The arm that starts at the target. If it is not empty it visits the target, and it leaves only
the position behind its end open. -/
theorem IsThorough.takenArm {sweep : Sweeper} (thorough : IsThorough instructions sweep)
    {passes target meeting last : Nat} {c : Control} {arm : Sweep} (forward : c.pc < target)
    (swept : Sweep.takenArm passes sweep target meeting last c = some arm) :
    (arm = { control := c.fork } ∧
      (last < target ∨ instructions.size ≤ target ∨ meeting ≤ target)) ∨
      (target ∈ arm.visited ∧ arm.control.pc ∈ arm.visited ∧
        (∀ i ∈ arm.visited, i ≤ last ∧ i < instructions.size ∧ i ≤ arm.control.pc) ∧
        ∀ i ∈ arm.visited, Continues instructions i → i < last → i + 1 < instructions.size →
          i + 1 ∈ arm.visited ∨ i = arm.control.pc) := by
  unfold Sweep.takenArm at swept
  obtain ⟨walked, sweeping, swept⟩ := Option.bind_eq_some_iff.mp swept
  obtain ⟨again, repeating, rfl⟩ := Option.map_eq_some_iff.mp swept
  split at sweeping
  case isFalse empty =>
    obtain rfl := Option.some.inj sweeping
    obtain rfl := Option.some.inj repeating
    exact .inl ⟨rfl, by omega⟩
  case isTrue meets =>
    by_cases live : target ≤ min (meeting - 1) last ∧ target < instructions.size
    · have covers := (thorough _ _ _ _ sweeping).1 live.1 live.2
      have first_le := covers.le_pc _ covers.first_mem
      have pc_le := covers.pc_le_last
      have pc_lt := covers.pc_lt_size
      have loops : ∀ i ∈ again, i < walked.control.pc ∧
          (Continues instructions i → i + 1 < instructions.size →
          i + 1 ∈ again ∨ i + 1 = walked.control.pc) := by
        unfold closing at repeating
        split at repeating
        · split at repeating
          · exact thorough.repeated_before (by omega) (by omega) repeating
          · obtain rfl := Option.some.inj repeating
            simp
        · obtain rfl := Option.some.inj repeating
          simp
      refine .inr
        ⟨List.mem_append_left _ covers.first_mem, List.mem_append_left _ covers.pc_mem, ?_, ?_⟩
      · intro i member
        rcases List.mem_append.mp member with member | member
        · have bound := covers.le_pc i member
          exact ⟨by omega, by omega, bound⟩
        · have bound := (loops i member).1
          exact ⟨by omega, by omega, Nat.le_of_lt bound⟩
      · intro i member continues early fits
        rcases List.mem_append.mp member with member | member
        · by_cases inner : i < min (meeting - 1) last
          · exact .inl (List.mem_append_left _ (covers.succ_mem i member continues inner fits))
          · have bound := covers.le_pc i member
            exact .inr (by simp only; omega)
        · rcases (loops i member).2 continues fits with next | jump
          · exact .inl (List.mem_append_right _ next)
          · exact .inl (List.mem_append_left _ (jump ▸ covers.pc_mem))
    · obtain rfl := (thorough _ _ _ _ sweeping).2 (by omega)
      obtain rfl := Option.some.inj repeating
      exact .inl ⟨rfl, by omega⟩

/-- If the arm behind a forward branch jumps over the other arm, both arms are covered. -/
theorem IsThorough.meet_arm {sweep : Sweeper} (thorough : IsThorough instructions sweep)
    {passes last target meeting : Nat} {c : Control} {through arm : Sweep}
    (inside : c.pc < instructions.size) (reach : c.pc ≤ last) (ahead : c.pc < target)
    (behind : sweep (c.pc + 1) (min (target - 1) last) c.fork = some through)
    (pending : through.control.pendingJump.isSome)
    (swept : Sweep.takenArm passes sweep target meeting last c = some arm) :
    (meet target arm.control through.control (through.visited ++ arm.visited)).Covers
      instructions c.pc last := by
  obtain ⟨-, jump_mem, start_le, end_lt, bounds, next⟩ := thorough.through ahead behind
  have jumped := (jump_mem pending).1
  rcases thorough.takenArm ahead swept
    with ⟨rfl, closed⟩ | ⟨start_mem, arm_mem, arm_bounds, arm_next⟩
  · -- The arm that starts at the target is empty, so the walk goes on at the target.
    refine meet_covers inside reach ahead List.mem_cons_self ?_ ?_ ?_ ?_
    · exact List.mem_cons_of_mem _ (List.mem_append_left _ jumped)
    · intro i member
      have bound := bounds i (by simpa using member)
      simp only [Control.fork]
      omega
    · simp only [Control.fork]
      omega
    · intro i member continues early fits
      rcases next i (by simpa using member) continues early fits with member | same
      · exact .inl (by simp [member])
      · simp only [Control.fork]
        exact .inr (by omega)
  · have target_le := (arm_bounds _ start_mem).2.2
    refine meet_covers inside reach ahead ?_ ?_ ?_ (by omega) ?_
    · exact List.mem_cons_of_mem _ (List.mem_append_right _ arm_mem)
    · exact List.mem_cons_of_mem _ (List.mem_append_left _ jumped)
    · intro i member
      rcases List.mem_append.mp member with member | member
      · have bound := bounds i member
        omega
      · have bound := arm_bounds i member
        omega
    · intro i member continues early fits
      rcases List.mem_append.mp (List.cons_append ▸ member) with member | member
      · rcases next i member continues early fits with member | same
        · exact .inl (List.mem_cons_of_mem _ (List.mem_append_left _ member))
        · exact .inl (List.mem_cons_of_mem _ (List.mem_append_right _ (same ▸ start_mem)))
      · rcases arm_next i member continues early fits with member | same
        · exact .inl (List.mem_cons_of_mem _ (List.mem_append_right _ member))
        · exact .inr (by omega)

/-- If the arm behind a forward branch jumps back, the arm and the loop that the jump closes are
covered. -/
theorem IsThorough.meet_loop {sweep : Sweeper} (thorough : IsThorough instructions sweep)
    {passes last target meeting : Nat} {c : Control} {through : Sweep} {again : List Nat}
    (inside : c.pc < instructions.size) (reach : c.pc ≤ last) (ahead : c.pc < target)
    (behind : sweep (c.pc + 1) (min (target - 1) last) c.fork = some through)
    (pending : through.control.pendingJump.isSome)
    (repeating : Sweep.repeated passes sweep meeting (min (through.control.pc - 1) last)
      through.control = some again) :
    (meet target c through.control (through.visited ++ again)).Covers instructions c.pc last := by
  obtain ⟨-, jump_mem, start_le, end_lt, bounds, next⟩ := thorough.through ahead behind
  obtain ⟨jumped, positive⟩ := jump_mem pending
  have jump_bounds := bounds _ jumped
  have loops := thorough.repeated_before (by omega) jump_bounds.1 repeating
  refine meet_covers inside reach ahead List.mem_cons_self ?_ ?_ (by omega) ?_
  · exact List.mem_cons_of_mem _ (List.mem_append_left _ jumped)
  · intro i member
    rcases List.mem_append.mp member with member | member
    · have bound := bounds i member
      omega
    · have bound := (loops i member).1
      omega
  · intro i member continues early fits
    rcases List.mem_append.mp (List.cons_append ▸ member) with member | member
    · rcases next i member continues early fits with member | same
      · exact .inl (List.mem_cons_of_mem _ (List.mem_append_left _ member))
      · exact .inr (by omega)
    · rcases (loops i member).2 continues fits with member | same
      · exact .inl (List.mem_cons_of_mem _ (List.mem_append_right _ member))
      · exact .inl (List.mem_cons_of_mem _ (List.mem_append_left _ (same ▸ jumped)))

/-- A forward branch covers both of its arms. -/
theorem IsThorough.forward {sweep : Sweeper} (thorough : IsThorough instructions sweep)
    {passes last target : Nat} {c : Control} {through : Sweep} {hop : Hop}
    (inside : c.pc < instructions.size) (reach : c.pc ≤ last) (ahead : c.pc < target)
    (behind : sweep (c.pc + 1) (min (target - 1) last) c.fork = some through)
    (hopped : Sweep.forward passes sweep last target c through = some hop) :
    hop.Covers instructions c.pc last := by
  unfold Sweep.forward at hopped
  split at hopped
  case h_1 quiet =>
    obtain ⟨end_mem, -, start_le, end_lt, bounds, next⟩ := thorough.through ahead behind
    obtain rfl := Option.some.inj hopped
    refine meet_covers inside reach ahead List.mem_cons_self end_mem ?_ (by omega) ?_
    · intro i member
      have bound := bounds i member
      omega
    · intro i member continues early fits
      rcases next i member continues early fits with member | same
      · exact .inl (List.mem_cons_of_mem _ member)
      · exact .inr (by omega)
  case h_2 meeting jump =>
    have pending : through.control.pendingJump.isSome := by rw [jump]; rfl
    split at hopped
    case isTrue later =>
      obtain ⟨arm, swept, rfl⟩ := Option.map_eq_some_iff.mp hopped
      exact thorough.meet_arm inside reach ahead behind pending swept
    case isFalse earlier =>
      obtain ⟨again, repeating, rfl⟩ := Option.map_eq_some_iff.mp hopped
      exact thorough.meet_loop inside reach ahead behind pending repeating

/-- A branch covers its arms, or the loop that it closes. -/
theorem IsThorough.branch {sweep : Sweeper} (thorough : IsThorough instructions sweep)
    {passes last target : Nat} {c : Control} {hop : Hop} (inside : c.pc < instructions.size)
    (reach : c.pc ≤ last) (hopped : Sweep.branch passes sweep last target c = some hop) :
    hop.Covers instructions c.pc last := by
  unfold Sweep.branch at hopped
  split at hopped
  case isTrue back =>
    obtain ⟨again, repeating, rfl⟩ := Option.map_eq_some_iff.mp hopped
    have loops : ∀ i ∈ again, i < c.pc ∧ (Continues instructions i → i + 1 < instructions.size →
        i + 1 ∈ again ∨ i + 1 = c.pc) := by
      split at repeating
      · intro i member
        obtain ⟨bound, next⟩ := thorough.repeated repeating i member
        exact ⟨by omega, fun continues fits => (next continues fits).imp_right (by omega)⟩
      · obtain rfl := Option.some.inj repeating
        simp
    refine ⟨List.mem_cons_self, reach, inside, ?_, ?_, ?_⟩
    · intro i member
      rcases List.mem_cons.mp member with rfl | member
      · exact Nat.le_refl _
      · exact Nat.le_of_lt (loops i member).1
    · intro position same
      obtain rfl := Option.some.inj same
      exact Nat.lt_succ_self _
    · intro i member continues early fits
      rcases List.mem_cons.mp member with rfl | member
      · exact .inr rfl
      · rcases (loops i member).2 continues fits with next | same
        · exact .inl (List.mem_cons_of_mem _ next)
        · exact .inl (same ▸ List.mem_cons_self)
  case isFalse ahead =>
    obtain ⟨through, behind, hopped⟩ := Option.bind_eq_some_iff.mp hopped
    exact thorough.forward inside reach (by omega) behind hopped

/-- The paths that go straight on. -/
theorem Hop.covers_straight {pc last : Nat} {c : Control} (inside : pc < instructions.size)
    (reach : pc ≤ last) (here : c.pc = pc) :
    ({ control := c, next := some (pc + 1) } : Hop).Covers instructions pc last := by
  refine ⟨by simp [here], by simpa only [here] using reach, by simpa only [here] using inside, ?_,
    ?_, ?_⟩
  · intro i member
    obtain rfl := List.mem_singleton.mp member
    exact Nat.le_of_eq here.symm
  · intro position same
    obtain rfl := Option.some.inj same
    exact Nat.lt_succ_of_le (Nat.le_of_eq here)
  · intro i member _ _ _
    obtain rfl := List.mem_singleton.mp member
    exact .inr rfl

/-- Each instruction covers what lies between it and the position where the sweep goes on. -/
theorem IsThorough.step {sweep : Sweeper} (thorough : IsThorough instructions sweep)
    {passes last pc : Nat} {instruction : Instruction} {c : Control} {hop : Hop}
    (found : instructions[pc]? = some instruction) (reach : pc ≤ last)
    (hopped : Sweep.step passes sweep last instruction { c with pc } = some hop) :
    hop.Covers instructions pc last := by
  obtain ⟨inside, -⟩ := Array.getElem?_eq_some_iff.mp found
  cases instruction with
  | branch condition target => exact thorough.branch inside reach hopped
  | throw => cases hopped
  | unsupported opcode => cases hopped
  | ret kind =>
      obtain rfl := Option.some.inj hopped
      refine ⟨List.mem_cons_self, reach, inside, ?_, ?_, ?_⟩
      · intro i member
        exact Nat.le_of_eq (List.mem_singleton.mp member)
      · intro position impossible
        cases impossible
      · intro i member continues
        obtain rfl := List.mem_singleton.mp member
        exact absurd found (continues kind)
  | _ =>
      obtain rfl := Option.some.inj hopped
      exact Hop.covers_straight inside reach rfl

/-- What a sweep can do: nothing in an empty range, and else a hop from the first instruction and
then the rest. -/
theorem run_cases {passes fuel first last : Nat} {c : Control} {s : Sweep}
    (swept : run instructions passes fuel first last c = some s) :
    (last < first ∨ instructions.size ≤ first) ∧ s = { control := c } ∨
      first ≤ last ∧ ∃ instruction fuel' hop rest, instructions[first]? = some instruction ∧
        fuel = fuel' + 1 ∧
        step passes (run instructions passes fuel') last instruction { c with pc := first } =
          some hop ∧
        follow (run instructions passes fuel') last hop = some rest ∧
        s = { rest with visited := first :: (hop.visited ++ rest.visited) } := by
  unfold run at swept
  split at swept
  case h_1 outside =>
    exact .inl ⟨.inr (Array.getElem?_eq_none_iff.mp outside), (Option.some.inj swept).symm⟩
  case h_2 instruction found =>
    split at swept
    case isTrue early => exact .inl ⟨.inl early, (Option.some.inj swept).symm⟩
    case isFalse reach =>
      cases fuel with
      | zero => cases swept
      | succ fuel =>
          obtain ⟨hop, hopped, swept⟩ := Option.bind_eq_some_iff.mp swept
          obtain ⟨rest, followed, rfl⟩ := Option.map_eq_some_iff.mp swept
          exact .inr ⟨by omega, instruction, fuel, hop, rest, found, rfl, hopped, followed, rfl⟩

/-- A hop and a thorough sweep of the rest cover the range together. -/
theorem IsThorough.follow {sweep : Sweeper} (thorough : IsThorough instructions sweep)
    {first last : Nat} {hop : Hop} {rest : Sweep} (covers : hop.Covers instructions first last)
    (followed : Sweep.follow sweep last hop = some rest) :
    Covers instructions first last
      { rest with visited := first :: (hop.visited ++ rest.visited) } := by
  -- If the path ends here, or goes on outside the range, there is only the hop.
  have alone (closed : ∀ i < last, i + 1 < instructions.size → hop.next ≠ some (i + 1))
      (same : rest = { control := hop.control }) :
      Covers instructions first last
      { rest with visited := first :: (hop.visited ++ rest.visited) } := by
    subst same
    simp only [List.append_nil]
    refine ⟨List.mem_cons_self, covers.pc_mem, covers.pc_le_last, covers.pc_lt_size,
      covers.le_pc, ?_⟩
    intro i member continues early fits
    exact (covers.succ_mem i member continues early fits).resolve_right (closed i early fits)
  unfold Sweep.follow at followed
  split at followed
  case h_2 ends =>
    exact alone (fun i _ _ goes => by rw [ends] at goes; cases goes) (Option.some.inj followed).symm
  case h_1 position goes =>
    by_cases live : position ≤ last ∧ position < instructions.size
    · have later := (thorough _ _ _ _ followed).1 live.1 live.2
      have after := covers.lt_next position goes
      have start_le := later.le_pc _ later.first_mem
      refine ⟨List.mem_cons_self, ?_, later.pc_le_last, later.pc_lt_size, ?_, ?_⟩
      · exact List.mem_cons_of_mem _ (List.mem_append_right _ later.pc_mem)
      · intro i member
        rcases List.mem_append.mp (List.cons_append ▸ member) with member | member
        · have bound := covers.le_pc i member
          simp only
          omega
        · exact later.le_pc i member
      · intro i member continues early fits
        rcases List.mem_append.mp (List.cons_append ▸ member) with member | member
        · rcases covers.succ_mem i member continues early fits with member | same
          · exact List.cons_append ▸ List.mem_append_left _ member
          · obtain rfl := Option.some.inj (goes.symm.trans same)
            exact List.mem_cons_of_mem _ (List.mem_append_right _ later.first_mem)
        · exact List.mem_cons_of_mem _
            (List.mem_append_right _ (later.succ_mem i member continues early fits))
    · refine alone ?_ ((thorough _ _ _ _ followed).2 (by omega))
      intro i early fits same
      obtain rfl := Option.some.inj (goes.symm.trans same)
      omega

/-- A sweep leaves nothing out but what stands behind a return. -/
theorem isThorough_run (instructions : Array Instruction) (passes fuel : Nat) :
    IsThorough instructions (run instructions passes fuel) := by
  induction fuel with
  | zero =>
      intro first last c s swept
      obtain ⟨empty, rfl⟩ | ⟨_, _, _, _, _, _, impossible, _⟩ := run_cases swept
      · exact ⟨fun reach inside => absurd empty (by omega), fun _ => rfl⟩
      · cases impossible
  | succ fuel thorough =>
      intro first last c s swept
      obtain ⟨empty, rfl⟩ | ⟨reach, instruction, _, hop, rest, found, same, hopped, followed,
          rfl⟩ := run_cases swept
      · exact ⟨fun reach inside => absurd empty (by omega), fun _ => rfl⟩
      · cases same
        obtain ⟨inside, -⟩ := Array.getElem?_eq_some_iff.mp found
        exact ⟨fun _ _ => thorough.follow (thorough.step found reach hopped) followed,
          fun empty => absurd empty (by omega)⟩

end Sweep

end ArrayBounds
