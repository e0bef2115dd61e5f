/-! # Sequences of steps that may fail

A sequence of steps succeeds exactly if they all succeed one after the other. The lemmas below say
so for the three kinds of steps in use: plain results, steps that keep their state when they fail,
and steps that lose it. So a successful sequence can be taken apart without looking at how values,
states and errors are passed on.
-/

namespace ArrayBounds

variable {ε σ α β : Type}

/-! ## Plain results -/

namespace Except

/-- A sequence succeeds exactly if both of its parts do. -/
theorem bind_eq_ok_iff {first : Except ε α} {next : α → Except ε β} {result : β} :
    first >>= next = .ok result ↔ ∃ value, first = .ok value ∧ next value = .ok result := by
  cases first with
  | error error => exact ⟨nofun, fun ⟨_, impossible, _⟩ => nomatch impossible⟩
  | ok value =>
      constructor
      · intro success
        exact ⟨value, rfl, success⟩
      · rintro ⟨_, same, success⟩
        cases same
        exact success

/-- A value that is returned is the result. -/
@[simp] theorem pure_eq_ok_iff {value result : α} :
    (pure value : Except ε α) = .ok result ↔ value = result :=
  ⟨fun same => Except.ok.inj same, fun same => congrArg _ same⟩

/-- A step is made for all items exactly if it succeeds for each of them. -/
theorem mapM_eq_ok_iff {f : α → Except ε β} {items : List α} {results : List β} :
    items.mapM f = .ok results ↔ items.map f = results.map .ok := by
  induction items generalizing results with
  | nil =>
      rw [List.mapM_nil, pure_eq_ok_iff, List.map_nil, eq_comm, eq_comm (a := []),
        List.map_eq_nil_iff]
  | cons item items ih =>
      simp only [List.mapM_cons, bind_eq_ok_iff, pure_eq_ok_iff, ih, List.map_cons]
      constructor
      · rintro ⟨first, found, rest, others, rfl⟩
        rw [found, others, List.map_cons]
      · intro same
        cases results with
        | nil => cases same
        | cons first rest =>
            obtain ⟨found, others⟩ := List.cons.inj same
            exact ⟨first, found, rest, others, rfl⟩

/-- Results of all elements form a list of results. -/
theorem exists_map_ok {f : α → Except ε β} {items : List α}
    (all : ∀ item ∈ items, ∃ result, f item = .ok result) :
    ∃ results : List β, items.map f = results.map .ok := by
  induction items with
  | nil => exact ⟨[], rfl⟩
  | cons item items ih =>
      obtain ⟨result, found⟩ := all item List.mem_cons_self
      obtain ⟨results, others⟩ := ih fun item member => all item (List.mem_cons_of_mem _ member)
      exact ⟨result :: results, by rw [List.map_cons, List.map_cons, found, others]⟩

section

variable {f : α → Except ε β} {items : List α} {results : List β}
  (same : items.map f = results.map .ok)
include same

/-- Each element has its result in the list of results. -/
theorem exists_result_of_map_ok {item : α} (member : item ∈ items) :
    ∃ result ∈ results, f item = .ok result := by
  have found : f item ∈ results.map .ok := same ▸ List.mem_map_of_mem member
  obtain ⟨result, there, found⟩ := List.mem_map.mp found
  exact ⟨result, there, found.symm⟩

/-- Each result in the list is that of an element. -/
theorem exists_item_of_map_ok {result : β} (member : result ∈ results) :
    ∃ item ∈ items, f item = .ok result := by
  have found : Except.ok result ∈ items.map f := same ▸ List.mem_map_of_mem member
  obtain ⟨item, there, found⟩ := List.mem_map.mp found
  exact ⟨item, there, found⟩

/-- A function that leads back from every result leads back from all of them. -/
theorem map_eq_of_map_ok {g : β → α}
    (inverse : ∀ {item result}, f item = .ok result → g result = item) : results.map g = items := by
  induction items generalizing results with
  | nil =>
      cases results with
      | nil => rfl
      | cons result results => cases same
  | cons item items ih =>
      cases results with
      | nil => cases same
      | cons result results =>
          obtain ⟨found, others⟩ := List.cons.inj same
          rw [List.map_cons, inverse found, ih others]

end

end Except

/-! ## Steps that keep their state when they fail -/

namespace EStateM

variable {first : EStateM ε σ α} {next : α → EStateM ε σ β} {before between after : σ}

/-- A sequence succeeds exactly if both of its parts do. -/
theorem bind_eq_ok_iff {result : β} :
    (first >>= next) before = .ok result after ↔
      ∃ value between, first before = .ok value between ∧
        next value between = .ok result after := by
  change EStateM.bind first next before = .ok result after ↔ _
  unfold EStateM.bind
  cases first before with
  | error error between => simp
  | ok value between =>
      constructor
      · intro success
        exact ⟨value, between, rfl, success⟩
      · rintro ⟨_, _, same, success⟩
        cases same
        exact success

/-- A sequence whose first part succeeds goes on with its value. -/
theorem bind_of_ok {value : α} (success : first before = .ok value between) :
    (first >>= next) before = next value between := by
  change EStateM.bind first next before = _
  rw [EStateM.bind, success]

/-- A sequence whose first part fails goes no further. -/
theorem bind_of_error {error : ε} (failure : first before = .error error between) :
    (first >>= next) before = .error error between := by
  change EStateM.bind first next before = _
  rw [EStateM.bind, failure]

/-- A value that is returned is the result, and the state stays the same. -/
@[simp] theorem pure_eq_ok_iff {value result : α} :
    (pure value : EStateM ε σ α) before = .ok result after ↔ value = result ∧ before = after := by
  change EStateM.Result.ok value before = .ok result after ↔ _
  simp

/-- An error is no result. -/
@[simp] theorem throw_ne_ok {error : ε} {result : α} :
    (throw error : EStateM ε σ α) before ≠ .ok result after := by
  intro success
  cases success

/-- A change of the state always succeeds. -/
@[simp] theorem modify_eq_ok_iff {change : σ → σ} {result : Unit} :
    (modify change : EStateM ε σ Unit) before = .ok result after ↔ change before = after := by
  change EStateM.Result.ok () (change before) = .ok result after ↔ _
  simp

/-- The state is looked at without changing it. -/
@[simp] theorem get_eq_ok_iff {result : σ} :
    (get : EStateM ε σ σ) before = .ok result after ↔ before = result ∧ before = after := by
  change EStateM.Result.ok before before = .ok result after ↔ _
  simp

/-- A sequence that starts by looking at the state is told the state that it starts in. -/
theorem get_bind (next : σ → EStateM ε σ α) (state : σ) :
    ((get : EStateM ε σ σ) >>= next) state = next state state := rfl

/-- A loop over a list that fails in one round goes no further. -/
theorem forM_of_error {step : α → EStateM ε σ Unit} {earlier later : List α} {value : α} {error : ε}
    (reached : earlier.forM step before = .ok () between)
    (failure : step value between = .error error after) :
    (earlier ++ value :: later).forM step before = .error error after := by
  induction earlier generalizing before with
  | nil =>
      obtain ⟨-, rfl⟩ := pure_eq_ok_iff.mp reached
      exact bind_of_error failure
  | cons first earlier ih =>
      obtain ⟨_, middle, done, reached⟩ := bind_eq_ok_iff.mp reached
      exact (bind_of_ok done).trans (ih reached)

/-- Each round of a loop over a list has succeeded if the loop has. -/
theorem forM_split {step : α → EStateM ε σ Unit} {earlier later : List α} {value : α}
    (reached : earlier.forM step before = .ok () between)
    (success : (earlier ++ value :: later).forM step before = .ok () after) :
    ∃ next, step value between = .ok () next := by
  cases round : step value between with
  | ok result next => exact ⟨next, rfl⟩
  | error error next =>
      rw [forM_of_error reached round] at success
      cases success

end EStateM

/-! ## Steps that lose their state when they fail -/

namespace StateT

variable {first : StateT σ (Except ε) α} {next : α → StateT σ (Except ε) β} {state between : σ}

/-- A sequence succeeds exactly if both of its parts do. -/
theorem bind_eq_ok_iff {result : β × σ} :
    (first >>= next) state = .ok result ↔
      ∃ value between, first state = .ok (value, between) ∧ next value between = .ok result := by
  change Except.bind (first state) _ = .ok result ↔ _
  cases first state with
  | error error => simp [Except.bind]
  | ok read =>
      constructor
      · intro success
        exact ⟨read.1, read.2, rfl, success⟩
      · rintro ⟨_, _, same, success⟩
        cases same
        exact success

/-- A sequence whose first part succeeds goes on with its value. -/
theorem bind_of_ok {value : α} (success : first state = .ok (value, between)) :
    (first >>= next) state = next value between := by
  change Except.bind (first state) _ = _
  rw [success]
  rfl

/-- A sequence whose first part fails goes no further. -/
theorem bind_of_error {error : ε} (failure : first state = .error error) :
    (first >>= next) state = .error error := by
  change Except.bind (first state) _ = _
  rw [failure]
  rfl

end StateT

end ArrayBounds
