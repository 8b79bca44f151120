import Mathlib.Data.List.Forall2

/-!
# Outcomes

A chain of steps succeeds exactly if every step does. A stage that stops at the first fault is a
chain of this kind, and so is a stage that treats the elements of a list one after another.
-/
namespace JackToolchain

variable {ε α β : Type}

/-- A chain of two steps succeeds exactly if both do. -/
theorem bind_eq_ok {first : Except ε α} {next : α → Except ε β} {result : β} :
    (first >>= next) = .ok result ↔ ∃ value, first = .ok value ∧ next value = .ok result := by
  cases first with
  | error error => simp [bind, Except.bind]
  | ok value => simp [bind, Except.bind]

/-- A chain of two steps fails exactly if the first step does, or the second one behind it. -/
theorem bind_eq_error {first : Except ε α} {next : α → Except ε β} {error : ε} :
    (first >>= next) = .error error ↔
      first = .error error ∨ ∃ value, first = .ok value ∧ next value = .error error := by
  cases first with
  | error other => simp [bind, Except.bind]
  | ok value => simp [bind, Except.bind]

/-- What follows on steps that differ in their errors only differs in those errors only. -/
theorem bind_mapError_congr {ε' : Type} {change : ε → ε'} {first second : Except ε α}
    (next : α → Except ε β) (same : first.mapError change = second.mapError change) :
    (first >>= next).mapError change = (second >>= next).mapError change := by
  cases first with
  | error error =>
    cases second with
    | error other => exact congrArg Except.error (Except.error.inj same)
    | ok other => contradiction
  | ok value =>
    cases second with
    | error other => contradiction
    | ok other =>
      obtain rfl := Except.ok.inj same
      rfl

/-- The value of a step is there exactly if the step succeeds with it. -/
theorem toOption_eq_some {outcome : Except ε α} {value : α} :
    outcome.toOption = some value ↔ outcome = .ok value := by
  cases outcome <;> simp [Except.toOption]

/-- A step succeeds whether its errors are changed or not. -/
theorem mapError_eq_ok {ε' : Type} {change : ε → ε'} {outcome : Except ε α} {value : α} :
    outcome.mapError change = .ok value ↔ outcome = .ok value := by
  cases outcome <;> simp [Except.mapError]

/-- A step that succeeds has its value. -/
theorem eq_ok_getD {outcome : Except ε α} (other : α) (succeeds : outcome.toBool = true) :
    outcome = .ok (outcome.toOption.getD other) := by
  cases outcome with
  | error error => contradiction
  | ok value => rfl

/-- A list is treated with success exactly if each element is. -/
theorem mapM_eq_ok {step : α → Except ε β} {values : List α} {results : List β} :
    values.mapM step = .ok results ↔
      List.Forall₂ (fun value result => step value = .ok result) values results := by
  induction values generalizing results with
  | nil =>
    rw [List.mapM_nil, List.forall₂_nil_left_iff]
    exact ⟨fun done => (Except.ok.inj done).symm, fun empty => by rw [empty]; rfl⟩
  | cons value rest ih =>
    rw [List.mapM_cons, bind_eq_ok, List.forall₂_cons_left_iff]
    constructor
    · rintro ⟨first, made, others⟩
      obtain ⟨tail, madeRest, joined⟩ := bind_eq_ok.mp others
      exact ⟨first, tail, made, ih.mp madeRest, (Except.ok.inj joined).symm⟩
    · rintro ⟨first, tail, made, madeRest, rfl⟩
      exact ⟨first, made, bind_eq_ok.mpr ⟨tail, ih.mpr madeRest, rfl⟩⟩

/-- What every step keeps, a fold of steps keeps. -/
theorem foldlM_invariant {σ : Type} {step : σ → α → Except ε σ} (kept : σ → Prop)
    (keeps : ∀ {state value later}, step state value = .ok later → kept state → kept later)
    {values : List α} {state later : σ} (folded : values.foldlM step state = .ok later)
    (own : kept state) : kept later := by
  induction values generalizing state with
  | nil => exact Except.ok.inj folded ▸ own
  | cons value rest ih =>
    rw [List.foldlM_cons] at folded
    obtain ⟨next, first, others⟩ := bind_eq_ok.mp folded
    exact ih others (keeps first own)

/-- What stands on the right of matched lists has its match on the left. -/
theorem exists_mem_left {related : α → β → Prop} {values : List α} {results : List β} {result : β}
    (matched : List.Forall₂ related values results) (member : result ∈ results) :
    ∃ value ∈ values, related value result := by
  induction matched with
  | nil => contradiction
  | cons own _ ih =>
    rcases List.mem_cons.mp member with rfl | later
    · exact ⟨_, List.mem_cons_self, own⟩
    · obtain ⟨value, inside, related⟩ := ih later
      exact ⟨value, List.mem_cons_of_mem _ inside, related⟩

/-- What stands on the left of matched lists has its match on the right. -/
theorem exists_mem_right {related : α → β → Prop} {values : List α} {results : List β} {value : α}
    (matched : List.Forall₂ related values results) (member : value ∈ values) :
    ∃ result ∈ results, related value result :=
  exists_mem_left matched.flip member

/-- A chain of two steps whose errors are changed has the steps whose errors are changed. -/
theorem mapError_bind {ε' : Type} (change : ε → ε') (first : Except ε α)
    (next : α → Except ε β) :
    (first >>= next).mapError change =
      first.mapError change >>= fun value => (next value).mapError change := by
  cases first <;> rfl

/-- The outcome of a list of steps does not depend on what the outcome of no step depends on. -/
theorem mapError_foldlM {ε' : Type} {change : ε → ε'} {without : α → α} {step : β → α → Except ε β}
    (same : ∀ state item,
      (step state (without item)).mapError change = (step state item).mapError change)
    (items : List α) (state : β) :
    ((items.map without).foldlM step state).mapError change =
      (items.foldlM step state).mapError change := by
  induction items generalizing state with
  | nil => rfl
  | cons item rest ih =>
    simp only [List.map_cons, List.foldlM_cons, mapError_bind, same, ih]

end JackToolchain
