import ArrayBounds.Proofs.Soundness.Effects

/-! # Rearrangements move words

On the operand stack a wide value takes two words, and every rearrangement is a movement of words:
the topmost one or two words are dropped, or copied below up to two of the words that follow them,
or the two topmost words change places. An entry of the stack of a frame stands for one word or for
two, so which entries have to move depends on their widths. If the movement of words leaves the two
words of every wide value together, the rearrangement of the frame is the same movement
(`ArrayBounds.Frame.shuffle_moves_words`).
-/

namespace ArrayBounds

open Program

/-- A word of the operand stack: a value that takes one word, or the first or the second word of a
wide value, seen from the top. -/
inductive StackWord (α : Type) where
  | whole (value : α)
  | first (value : α)
  | second (value : α)
deriving DecidableEq

section

variable {α : Type}

/-- The words of a stack, whose head is the top. -/
def wordsOf (isWide : α → Bool) (stack : List α) : List (StackWord α) :=
  stack.flatMap fun value => if isWide value then [.first value, .second value] else [.whole value]

/-- The two words of each wide value stand together. -/
inductive Together : List (StackWord α) → Prop where
  | nil : Together []
  | narrow (value : α) {words : List (StackWord α)} (rest : Together words) :
      Together (.whole value :: words)
  | wide (value : α) {words : List (StackWord α)} (rest : Together words) :
      Together (.first value :: .second value :: words)

/-- Drops the topmost words. -/
def dropWords (count : Nat) (words : List (StackWord α)) : Option (List (StackWord α)) :=
  if count ≤ words.length then some (words.drop count) else none

/-- Copies the topmost words below some of those that follow them. -/
def copyWords (count under : Nat) (words : List (StackWord α)) : Option (List (StackWord α)) :=
  if count + under ≤ words.length then
    some (words.take (count + under) ++ words.take count ++ words.drop (count + under))
  else none

/-- Exchanges the two topmost words. -/
def swapWords : List (StackWord α) → Option (List (StackWord α))
  | top :: next :: words => some (next :: top :: words)
  | _ => none

/-- The movement of words that a rearrangement is; absent if there are too few words. -/
def Program.StackOp.onWords : StackOp → List (StackWord α) → Option (List (StackWord α))
  | .pop => dropWords 1
  | .pop2 => dropWords 2
  | .dup => copyWords 1 0
  | .dupX1 => copyWords 1 1
  | .dupX2 => copyWords 1 2
  | .dup2 => copyWords 2 0
  | .dup2X1 => copyWords 2 1
  | .dup2X2 => copyWords 2 2
  | .swap => swapWords

variable {isWide : α → Bool} {stack : List α} {words more : List (StackWord α)} {value : α}

/-! ## The words of a stack -/

private theorem wordsOf_append (isWide : α → Bool) (front stack : List α) :
    wordsOf isWide (front ++ stack) = wordsOf isWide front ++ wordsOf isWide stack :=
  List.flatMap_append

private theorem wordsOf_cons_narrow (narrow : isWide value = false) (stack : List α) :
    wordsOf isWide (value :: stack) = .whole value :: wordsOf isWide stack := by
  simp [wordsOf, narrow]

private theorem wordsOf_cons_wide (wide : isWide value = true) (stack : List α) :
    wordsOf isWide (value :: stack) = .first value :: .second value :: wordsOf isWide stack := by
  simp [wordsOf, wide]

/-- A whole word on top is a narrow value. -/
private theorem exists_of_wordsOf_eq_whole (starts : wordsOf isWide stack = .whole value :: words) :
    ∃ rest, stack = value :: rest ∧ isWide value = false ∧ wordsOf isWide rest = words := by
  cases stack with
  | nil => cases starts
  | cons top rest =>
      cases width : isWide top with
      | false =>
          rw [wordsOf_cons_narrow width] at starts
          cases starts
          exact ⟨rest, rfl, width, rfl⟩
      | true =>
          rw [wordsOf_cons_wide width] at starts
          cases starts

/-- A first half on top is that of a wide value. -/
private theorem exists_of_wordsOf_eq_first (starts : wordsOf isWide stack = .first value :: words) :
    ∃ rest, stack = value :: rest ∧ isWide value = true ∧
      .second value :: wordsOf isWide rest = words := by
  cases stack with
  | nil => cases starts
  | cons top rest =>
      cases width : isWide top with
      | false =>
          rw [wordsOf_cons_narrow width] at starts
          cases starts
      | true =>
          rw [wordsOf_cons_wide width] at starts
          cases starts
          exact ⟨rest, rfl, width, rfl⟩

/-- The words of a stack keep the halves of wide values together. -/
private theorem together_wordsOf (isWide : α → Bool) (stack : List α) :
    Together (wordsOf isWide stack) := by
  induction stack with
  | nil => exact .nil
  | cons value stack ih =>
      cases width : isWide value with
      | false =>
          rw [wordsOf_cons_narrow width]
          exact .narrow value ih
      | true =>
          rw [wordsOf_cons_wide width]
          exact .wide value ih

/-- Words that stand together do not start within a value. -/
theorem Together.head_ne (together : Together words) (value : α) :
    words.head? ≠ some (.second value) := by
  cases together <;> exact nofun

/-! ## Cuts between values -/

/-- Behind complete values, halves are together if they are by themselves. -/
private theorem Together.append_iff (front : Together words) :
    Together (words ++ more) ↔ Together more := by
  induction front with
  | nil => rfl
  | narrow value rest ih =>
      constructor
      · intro together
        cases together with
        | narrow _ together => exact ih.mp together
      · exact fun together => .narrow value (ih.mpr together)
  | wide value rest ih =>
      constructor
      · intro together
        cases together with
        | wide _ together => exact ih.mp together
      · exact fun together => .wide value (ih.mpr together)

/-- Words that do not start within a value are cut off between two values. -/
theorem Together.of_append (together : Together (words ++ more))
    (start : ∀ value, more.head? ≠ some (.second value)) : Together words := by
  generalize whole : words ++ more = all at together
  induction together generalizing words with
  | nil =>
      rw [(List.append_eq_nil_iff.mp whole).1]
      exact .nil
  | narrow value rest ih =>
      rcases List.append_eq_cons_iff.mp whole with ⟨rfl, -⟩ | ⟨inner, rfl, same⟩
      · exact .nil
      · exact .narrow value (ih same.symm)
  | wide value rest ih =>
      rcases List.append_eq_cons_iff.mp whole with ⟨rfl, -⟩ | ⟨inner, rfl, same⟩
      · exact .nil
      · rcases List.append_eq_cons_iff.mp same.symm with ⟨rfl, rfl⟩ | ⟨inner, rfl, further⟩
        · exact absurd rfl (start value)
        · exact .wide value (ih further.symm)

/-- A cut between the words of two values is a cut between two entries. -/
theorem exists_of_wordsOf_eq_append (cut : wordsOf isWide stack = words ++ more)
    (together : Together words) :
    ∃ top rest, stack = top ++ rest ∧ wordsOf isWide top = words ∧ wordsOf isWide rest = more := by
  induction together generalizing stack with
  | nil => exact ⟨[], stack, rfl, rfl, cut⟩
  | narrow value _ ih =>
      obtain ⟨others, rfl, narrow, behind⟩ := exists_of_wordsOf_eq_whole cut
      obtain ⟨top, rest, rfl, rfl, rfl⟩ := ih behind
      exact ⟨value :: top, rest, rfl, wordsOf_cons_narrow narrow top, rfl⟩
  | wide value _ ih =>
      obtain ⟨others, rfl, wide, behind⟩ := exists_of_wordsOf_eq_first cut
      obtain ⟨top, rest, rfl, rfl, rfl⟩ := ih (List.cons.inj behind).2
      exact ⟨value :: top, rest, rfl, wordsOf_cons_wide wide top, rfl⟩

/-! ## Movements of words between values -/

/-- Dropping words that leaves halves together drops whole values. -/
private theorem exists_of_dropWords {count : Nat}
    (dropped : dropWords count (wordsOf isWide stack) = some words) (together : Together words) :
    ∃ top rest, stack = top ++ rest ∧ (wordsOf isWide top).length = count ∧
      words = wordsOf isWide rest := by
  unfold dropWords at dropped
  split at dropped
  case isFalse => cases dropped
  case isTrue enough =>
    obtain rfl := Option.some.inj dropped
    have cut := (List.take_append_drop count (wordsOf isWide stack)).symm
    have front :=
      (cut ▸ together_wordsOf isWide stack : Together (_ ++ _)).of_append together.head_ne
    obtain ⟨top, rest, rfl, taken, left⟩ := exists_of_wordsOf_eq_append cut front
    exact ⟨top, rest, rfl, by rw [taken, List.length_take, Nat.min_eq_left enough], left.symm⟩

/-- Copying words that leaves halves together copies whole values. -/
private theorem exists_of_copyWords {count under : Nat} (nonempty : 0 < count)
    (copied : copyWords count under (wordsOf isWide stack) = some words)
    (together : Together words) :
    ∃ top below rest, stack = top ++ below ++ rest ∧ (wordsOf isWide top).length = count ∧
      (wordsOf isWide below).length = under ∧
      words = wordsOf isWide (top ++ below ++ top ++ rest) := by
  unfold copyWords at copied
  split at copied
  case isFalse => cases copied
  case isTrue enough =>
    obtain rfl := Option.some.inj copied
    have all := together_wordsOf isWide stack
    generalize whole : wordsOf isWide stack = moved at all enough together
    rw [List.append_assoc] at together
    -- The copy starts like the stack, so the words above it end with a value, and with them those
    -- of the copy.
    have start (value : α) : (moved.take count ++ moved.drop (count + under)).head? ≠
        some (.second value) := by
      obtain ⟨fewer, rfl⟩ := Nat.exists_eq_add_one_of_ne_zero (Nat.ne_of_gt nonempty)
      cases moved with
      | nil =>
          rw [List.length_nil] at enough
          omega
      | cons word words => exact all.head_ne value
    have above : Together (moved.take (count + under)) := together.of_append start
    have copy := above.append_iff.mp together
    have left : Together (moved.drop (count + under)) := by
      rw [← above.append_iff, List.take_append_drop]
      exact all
    have top := copy.of_append left.head_ne
    have cut : wordsOf isWide stack = _ ++ _ :=
      whole.trans (List.take_append_drop (count + under) moved).symm
    obtain ⟨upper, rest, rfl, taken, dropped⟩ := exists_of_wordsOf_eq_append cut above
    have inner : wordsOf isWide upper = moved.take count ++ (moved.drop count).take under := by
      rw [taken, List.take_add]
    obtain ⟨top, below, rfl, topmost, next⟩ := exists_of_wordsOf_eq_append inner top
    refine ⟨top, below, rest, rfl, ?_, ?_, ?_⟩
    · rw [topmost, List.length_take]
      omega
    · rw [next, List.length_take, List.length_drop]
      omega
    · rw [wordsOf_append, wordsOf_append, taken, topmost, dropped]

/-- Swapping words that leaves halves together swaps two narrow values. -/
private theorem exists_of_swapWords (swapped : swapWords (wordsOf isWide stack) = some words)
    (together : Together words) :
    ∃ top next rest, stack = top :: next :: rest ∧
      words = wordsOf isWide (next :: top :: rest) := by
  have all := together_wordsOf isWide stack
  generalize whole : wordsOf isWide stack = moved at swapped all
  unfold swapWords at swapped
  split at swapped
  case h_2 => cases swapped
  case h_1 first second behind =>
    obtain rfl := Option.some.inj swapped
    -- Neither of the two words belongs to a wide value, whose second word would come to stand above
    -- its first one.
    cases together with
    | wide => exact absurd rfl (all.head_ne _)
    | narrow next together =>
        cases together with
        | wide => cases all
        | narrow top _ =>
            obtain ⟨others, rfl, narrow, behind⟩ := exists_of_wordsOf_eq_whole whole
            obtain ⟨rest, rfl, narrow', rfl⟩ := exists_of_wordsOf_eq_whole behind
            exact ⟨top, next, rest, rfl, by
              rw [wordsOf_cons_narrow narrow', wordsOf_cons_narrow narrow]⟩

/-! ## Entries with a given number of words -/

/-- A stack without words is empty. -/
private theorem eq_nil_of_no_words (none : (wordsOf isWide stack).length = 0) : stack = [] := by
  cases stack with
  | nil => rfl
  | cons value stack =>
      cases width : isWide value with
      | false => simp [wordsOf_cons_narrow width] at none
      | true => simp [wordsOf_cons_wide width] at none

/-- One word is a narrow value. -/
private theorem exists_of_one_word (one : (wordsOf isWide stack).length = 1) :
    ∃ value, stack = [value] ∧ isWide value = false := by
  cases stack with
  | nil => cases one
  | cons value stack =>
      cases width : isWide value with
      | false =>
          rw [wordsOf_cons_narrow width, List.length_cons] at one
          exact ⟨value, by rw [eq_nil_of_no_words (Nat.succ.inj one)], width⟩
      | true => simp [wordsOf_cons_wide width] at one

/-- Two words are a wide value or two narrow ones. -/
private theorem exists_of_two_words (two : (wordsOf isWide stack).length = 2) :
    (∃ value, stack = [value] ∧ isWide value = true) ∨
      ∃ top next, stack = [top, next] ∧ isWide top = false ∧ isWide next = false := by
  cases stack with
  | nil => cases two
  | cons value stack =>
      cases width : isWide value with
      | false =>
          rw [wordsOf_cons_narrow width, List.length_cons] at two
          obtain ⟨next, rfl, narrow⟩ := exists_of_one_word (Nat.succ.inj two)
          exact .inr ⟨value, next, rfl, width, narrow⟩
      | true =>
          rw [wordsOf_cons_wide width, List.length_cons, List.length_cons] at two
          exact .inl ⟨value, by rw [eq_nil_of_no_words (Nat.succ.inj (Nat.succ.inj two))], width⟩

/-! ## Rearrangements -/

/-- A rearrangement moves the entries of a stack as it moves their words, if it leaves the words of
each value together. -/
theorem Program.StackOp.apply_of_onWords {op : StackOp}
    (moved : op.onWords (wordsOf isWide stack) = some words) (together : Together words) :
    ∃ rearranged, op.apply isWide stack = some rearranged ∧ wordsOf isWide rearranged = words := by
  cases op with
  | pop =>
      obtain ⟨top, rest, rfl, one, rfl⟩ := exists_of_dropWords moved together
      obtain ⟨value, rfl, -⟩ := exists_of_one_word one
      exact ⟨rest, rfl, rfl⟩
  | pop2 =>
      obtain ⟨top, rest, rfl, two, rfl⟩ := exists_of_dropWords moved together
      obtain ⟨value, rfl, wide⟩ | ⟨value, next, rfl, narrow, -⟩ := exists_of_two_words two
      · exact ⟨rest, if_pos wide, rfl⟩
      · exact ⟨rest, by simp [apply, narrow], rfl⟩
  | dup =>
      obtain ⟨top, below, rest, rfl, one, none, rfl⟩ :=
        exists_of_copyWords Nat.one_pos moved together
      obtain ⟨value, rfl, -⟩ := exists_of_one_word one
      obtain rfl := eq_nil_of_no_words none
      exact ⟨_, rfl, rfl⟩
  | dupX1 =>
      obtain ⟨top, below, rest, rfl, one, under, rfl⟩ :=
        exists_of_copyWords Nat.one_pos moved together
      obtain ⟨value, rfl, -⟩ := exists_of_one_word one
      obtain ⟨next, rfl, -⟩ := exists_of_one_word under
      exact ⟨_, rfl, rfl⟩
  | dupX2 =>
      obtain ⟨top, below, rest, rfl, one, under, rfl⟩ :=
        exists_of_copyWords Nat.one_pos moved together
      obtain ⟨value, rfl, -⟩ := exists_of_one_word one
      obtain ⟨next, rfl, wide⟩ | ⟨next, third, rfl, narrow, -⟩ := exists_of_two_words under
      · exact ⟨_, if_pos wide, rfl⟩
      · exact ⟨_, by simp [apply, narrow], rfl⟩
  | dup2 =>
      obtain ⟨top, below, rest, rfl, two, none, rfl⟩ :=
        exists_of_copyWords Nat.two_pos moved together
      obtain rfl := eq_nil_of_no_words none
      obtain ⟨value, rfl, wide⟩ | ⟨value, next, rfl, narrow, -⟩ := exists_of_two_words two
      · exact ⟨_, if_pos wide, rfl⟩
      · exact ⟨_, by simp [apply, narrow], rfl⟩
  | dup2X1 =>
      obtain ⟨top, below, rest, rfl, two, under, rfl⟩ :=
        exists_of_copyWords Nat.two_pos moved together
      obtain ⟨third, rfl, -⟩ := exists_of_one_word under
      obtain ⟨value, rfl, wide⟩ | ⟨value, next, rfl, narrow, -⟩ := exists_of_two_words two
      · exact ⟨_, if_pos wide, rfl⟩
      · exact ⟨_, by simp [apply, narrow], rfl⟩
  | dup2X2 =>
      obtain ⟨top, below, rest, rfl, two, under, rfl⟩ :=
        exists_of_copyWords Nat.two_pos moved together
      obtain ⟨value, rfl, wide⟩ | ⟨value, next, rfl, narrow, -⟩ := exists_of_two_words two
      · obtain ⟨third, rfl, wide'⟩ | ⟨third, fourth, rfl, narrow', -⟩ := exists_of_two_words under
        · exact ⟨_, by simp [apply, wide, wide'], rfl⟩
        · exact ⟨_, by simp [apply, wide, narrow'], rfl⟩
      · obtain ⟨third, rfl, wide'⟩ | ⟨third, fourth, rfl, narrow', -⟩ := exists_of_two_words under
        · exact ⟨_, by simp [apply, narrow, wide'], rfl⟩
        · exact ⟨_, by simp [apply, narrow, narrow'], rfl⟩
  | swap =>
      obtain ⟨top, next, rest, rfl, rfl⟩ := exists_of_swapWords moved together
      exact ⟨_, rfl, rfl⟩

end

namespace Frame

/-- The words on the operand stack. -/
def words (f : Frame) : List (StackWord VarId) :=
  wordsOf f.isWide f.stack

/-- If there are enough words for the movement that a rearrangement is, and it leaves the two words
of every wide value together, then the rearrangement succeeds and moves the words of the frame just
so. Entries are only copied or dropped, and nothing but the stack changes. -/
theorem shuffle_moves_words {f : Frame} {op : StackOp} {moved : List (StackWord VarId)}
    (enough : op.onWords f.words = some moved) (together : Together moved) :
    ∃ g, f.shuffle op = .ok g ∧ g.words = moved ∧ (∀ id ∈ g.stack, id ∈ f.stack) ∧
      g = { f with stack := g.stack } := by
  obtain ⟨stack, applied, words⟩ := StackOp.apply_of_onWords enough together
  exact ⟨{ f with stack }, shuffle_eq_ok_iff.mpr ⟨stack, applied, rfl⟩, words,
    StackOp.mem_of_apply applied, rfl⟩

end Frame

/-- A frame with an array reference, an index and a wide value on top. -/
def longOverIndex : Frame :=
  ((({} : Frame).push (.unknown (some (.array .long)) 0)).push (.unknown (some .int) 1)).push
    (.unknown (some .long) 2)

/-- Copying the two words of the wide value below the two narrow values, as before a store that is
also used as a value. -/
theorem longOverIndex_moves :
    longOverIndex.words = [.first 2, .second 2, .whole 1, .whole 0] ∧
    StackOp.dup2X2.onWords longOverIndex.words =
      some [.first 2, .second 2, .whole 1, .whole 0, .first 2, .second 2] ∧
    Together [StackWord.first 2, .second 2, .whole 1, .whole 0, .first 2, .second 2] ∧
    ∃ g, longOverIndex.shuffle .dup2X2 = .ok g ∧
      g.words = [.first 2, .second 2, .whole 1, .whole 0, .first 2, .second 2] ∧
      g = { longOverIndex with stack := g.stack } := by
  have words : longOverIndex.words = [.first 2, .second 2, .whole 1, .whole 0] := by decide +kernel
  have moved : StackOp.dup2X2.onWords longOverIndex.words =
      some [.first 2, .second 2, .whole 1, .whole 0, .first 2, .second 2] := by
    rw [words]
    rfl
  have together :
      Together [StackWord.first (2 : VarId), .second 2, .whole 1, .whole 0, .first 2, .second 2] :=
    .wide 2 (.narrow 1 (.narrow 0 (.wide 2 .nil)))
  obtain ⟨g, shuffled, same, -, others⟩ := Frame.shuffle_moves_words moved together
  exact ⟨words, moved, together, g, shuffled, same, others⟩

end ArrayBounds
