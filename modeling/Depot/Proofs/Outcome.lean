import Mathlib.Data.List.Forall2

set_option autoImplicit false

namespace Depot

variable {ε α β γ δ : Type}

theorem bind_ok_iff {first : Except ε α} {next : α → Except ε β} {result : β} :
    first >>= next = .ok result ↔ ∃ value, first = .ok value ∧ next value = .ok result := by
  cases first with
  | error fault => simp [bind, Except.bind]
  | ok value => simp [bind, Except.bind]

theorem bind_unit_ok_iff {first : Except ε Unit} {next : Unit → Except ε β} {result : β} :
    first >>= next = .ok result ↔ first = .ok () ∧ next () = .ok result := by
  cases first with
  | error fault => simp [bind, Except.bind]
  | ok value => simp [bind, Except.bind]

theorem bind_error_iff {first : Except ε α} {next : α → Except ε β} {fault : ε} :
    first >>= next = .error fault ↔
      first = .error fault ∨ ∃ value, first = .ok value ∧ next value = .error fault := by
  cases first with
  | error fault => simp [bind, Except.bind]
  | ok value => simp [bind, Except.bind]

theorem toOption_eq_some_iff {first : Except ε α} {result : α} :
    first.toOption = some result ↔ first = .ok result := by
  cases first with
  | error fault => simp [Except.toOption]
  | ok value => simp [Except.toOption]

theorem map_ok_iff {first : Except ε α} {change : α → β} {result : β} :
    first.map change = .ok result ↔ ∃ value, first = .ok value ∧ change value = result := by
  cases first with
  | error fault => simp [Except.map]
  | ok value => simp [Except.map]

theorem map_error_iff {first : Except ε α} {change : α → β} {fault : ε} :
    first.map change = .error fault ↔ first = .error fault := by
  cases first with
  | error earlier => simp [Except.map]
  | ok value => simp [Except.map]

/-- A run of steps fails with the fault of the first step that fails. -/
theorem foldlM_error_iff {step : β → α → Except ε β} {start : β} {values : List α} {fault : ε} :
    values.foldlM step start = .error fault ↔
      ∃ before wrong after middle, values = before ++ wrong :: after ∧
        before.foldlM step start = .ok middle ∧ step middle wrong = .error fault := by
  constructor
  · intro failed
    induction values generalizing start with
    | nil => cases failed
    | cons first rest ih =>
      rw [List.foldlM_cons] at failed
      rcases bind_error_iff.mp failed with here | ⟨next, stepped, later⟩
      · exact ⟨[], first, rest, start, rfl, rfl, here⟩
      · obtain ⟨before, wrong, after, middle, rfl, reached, failed⟩ := ih later
        refine ⟨first :: before, wrong, after, middle, rfl, ?_, failed⟩
        rw [List.foldlM_cons, stepped]
        exact reached
  · rintro ⟨before, wrong, after, middle, rfl, reached, failed⟩
    rw [List.foldlM_append, reached]
    show List.foldlM step middle (wrong :: after) = .error fault
    rw [List.foldlM_cons, failed]
    rfl

section Steps

variable {σ : Type} {first : EStateM ε σ α} {next : α → EStateM ε σ β} {before after : σ}

theorem bind_done {value : α} (done : first before = .ok value after) :
    (first >>= next) before = next value after := by
  simp only [bind, EStateM.bind, done]

theorem bind_failed {fault : ε} (failed : first before = .error fault after) :
    (first >>= next) before = .error fault after := by
  simp only [bind, EStateM.bind, failed]

theorem bind_done_iff {result : β} :
    (first >>= next) before = .ok result after ↔
      ∃ value between, first before = .ok value between ∧
        next value between = .ok result after := by
  simp only [bind, EStateM.bind]
  cases first before <;> simp

end Steps

section Correspondence

variable {relates : α → β → Prop} {values : List α} {results : List β}
  (each : List.Forall₂ relates values results)

include each

theorem exists_of_mem_left {value : α} (present : value ∈ values) :
    ∃ result ∈ results, relates value result := by
  obtain ⟨index, bound, rfl⟩ := List.getElem_of_mem present
  have inside : index < results.length := each.length_eq ▸ bound
  exact ⟨_, List.getElem_mem inside, each.get bound inside⟩

theorem exists_of_mem_right {result : β} (present : result ∈ results) :
    ∃ value ∈ values, relates value result := by
  obtain ⟨index, bound, rfl⟩ := List.getElem_of_mem present
  have inside : index < values.length := each.length_eq ▸ bound
  exact ⟨_, List.getElem_mem inside, each.get inside bound⟩

theorem map_eq_of_forall₂ {left : α → γ} {right : β → γ}
    (same : ∀ value result, relates value result → right result = left value) :
    results.map right = values.map left := by
  induction each with
  | nil => rfl
  | cons related _ ih => rw [List.map_cons, List.map_cons, ih, same _ _ related]

/-- What all results tell is the values that are told of, in order, if each tells of its own value
or of none. -/
theorem flatMap_eq_filter {tell : β → List γ} {label : α → γ} {picks : α → Bool}
    (tells : ∀ value result, relates value result →
      tell result = if picks value then [label value] else []) :
    results.flatMap tell = (values.filter picks).map label := by
  induction each with
  | nil => rfl
  | @cons value result _ _ related _ ih =>
    rw [List.flatMap_cons, ih, tells value result related]
    cases picked : picks value with
    | true => simp [picked]
    | false => simp [picked]

end Correspondence

/-- What all results tell of a value is what its own result tells of it, if each tells only of its
own value. -/
theorem exists_own {relates : α → β → Prop} {values : List α} {results : List β}
    (each : List.Forall₂ relates values results) {label : α → γ}
    (distinct : (values.map label).Nodup) {value : α} (present : value ∈ values) :
    ∃ own, relates value own ∧ ∀ tell : β → List γ,
      (∀ value result, relates value result → tell result ⊆ [label value]) →
      (label value ∈ results.flatMap tell ↔ label value ∈ tell own) := by
  induction each with
  | nil => cases present
  | @cons first result rest results related later ih =>
    obtain ⟨fresh, distinct⟩ := List.nodup_cons.mp distinct
    rcases List.mem_cons.mp present with rfl | held
    · refine ⟨result, related, fun tell only => ?_⟩
      rw [List.flatMap_cons, List.mem_append, or_iff_left]
      intro told
      obtain ⟨other, among, told⟩ := List.mem_flatMap.mp told
      obtain ⟨owner, held, relates⟩ := exists_of_mem_right later among
      have same := List.mem_singleton.mp (only owner other relates told)
      exact fresh (same ▸ List.mem_map_of_mem held)
    · obtain ⟨own, relates, tells⟩ := ih distinct held
      refine ⟨own, relates, fun tell only => ?_⟩
      rw [List.flatMap_cons, List.mem_append, tells tell only, or_iff_right]
      intro told
      have same := List.mem_singleton.mp (only first result related told)
      exact fresh (same ▸ List.mem_map_of_mem held)

/-- The first value that is looked for and the first result that is looked for correspond. -/
theorem rel_find? {relates : α → β → Prop} {values : List α} {results : List β} {left : α → Bool}
    {right : β → Bool} (each : List.Forall₂ relates values results)
    (same : ∀ value result, relates value result → left value = right result) :
    Option.Rel relates (values.find? left) (results.find? right) := by
  induction each with
  | nil => exact .none
  | @cons value result values results related _ ih =>
    rw [List.find?_cons, List.find?_cons, same value result related]
    cases right result with
    | true => exact .some related
    | false => exact ih

/-- What comes after corresponds too. -/
theorem rel_bind {relates : α → β → Prop} {relates' : γ → δ → Prop} {value? : Option α}
    {result? : Option β} {left : α → Option γ} {right : β → Option δ}
    (here : Option.Rel relates value? result?)
    (next : ∀ value result, relates value result → Option.Rel relates' (left value)
      (right result)) :
    Option.Rel relates' (value?.bind left) (result?.bind right) := by
  cases here with
  | none => exact .none
  | some related => exact next _ _ related

/-- Two correspondences, one after the other. -/
theorem forall₂_comp {first : α → β → Prop} {second : β → γ → Prop} {values : List α}
    {middle : List β} {results : List γ} (here : List.Forall₂ first values middle)
    (there : List.Forall₂ second middle results) :
    List.Forall₂ (fun value result => ∃ between, first value between ∧ second between result)
      values results := by
  induction here generalizing results with
  | nil =>
    cases there
    exact .nil
  | cons related _ ih =>
    cases there with
    | cons related' later => exact .cons ⟨_, related, related'⟩ (ih later)

/-- Only what a step does to the values of a list matters. -/
theorem mapM_congr {step other : α → Except ε β} {values : List α}
    (same : ∀ value ∈ values, step value = other value) : values.mapM step = values.mapM other := by
  induction values with
  | nil => rfl
  | cons value rest ih =>
    have later := ih fun value present => same value (List.mem_cons_of_mem _ present)
    rw [List.mapM_cons, List.mapM_cons, same value List.mem_cons_self, later]

theorem mapM_ok_iff {step : α → Except ε β} {values : List α} {results : List β} :
    values.mapM step = .ok results ↔
      List.Forall₂ (fun value result => step value = .ok result) values results := by
  induction values generalizing results with
  | nil => simp [pure, Except.pure, eq_comm]
  | cons value rest ih =>
    simp only [List.mapM_cons, bind_ok_iff, List.forall₂_cons_left_iff, ih]
    constructor
    · rintro ⟨first, here, others, later, result⟩
      cases result
      exact ⟨first, others, here, later, rfl⟩
    · rintro ⟨first, others, here, later, rfl⟩
      exact ⟨first, here, others, later, rfl⟩

end Depot
