import Depot.Disk.Location
import Depot.Proofs.Path
import Mathlib.Data.List.TakeWhile

set_option autoImplicit false

namespace Depot.Disk.Location

def enter (here : List Name) (step : Bytes) : List Name :=
  if step = [Name.dot, Name.dot] then here.dropLast
  else
    match Name.ofBytes step with
    | .ok name => here ++ [name]
    | .error _ => here

/-- Where a location starts: at the root or at the working directory. -/
def origin (working : List Name) (location : Location) : List Name :=
  if isAbsolute location then [] else working

def place (working : List Name) (location : Location) : List Name :=
  (steps location).foldl enter (origin working location)

/-- A location passes its start, its end and all places between. -/
def Passes (working : List Name) (location : Location) (spot : List Name) : Prop :=
  ∃ taken, taken <+: steps location ∧ spot = taken.foldl enter (origin working location)

theorem passes_origin (working : List Name) (location : Location) :
    Passes working location (origin working location) :=
  ⟨[], List.nil_prefix, rfl⟩

theorem steps_slash (left right : Location) :
    steps (left ++ Name.slash :: right) = steps left ++ steps right := by
  rw [steps, Path.parts_slash, List.filter_append, ← steps, ← steps]

theorem steps_name (name : Name) : steps name.bytes = [name.bytes] := by
  obtain ⟨filled, dot, _, whole⟩ := name.facts
  rw [steps, Path.parts_whole whole, List.filter_cons_of_pos (by simp [filled, dot]),
    List.filter_nil]

theorem enter_name (here : List Name) (name : Name) : enter here name.bytes = here ++ [name] := by
  obtain ⟨_, _, dots, _⟩ := name.facts
  rw [enter, if_neg dots, Name.ofBytes_bytes]

/-- What a step looks like: not empty, not a full stop and without slashes. -/
def IsStep (step : Bytes) : Prop :=
  step ≠ [] ∧ step ≠ [Name.dot] ∧ Name.slash ∉ step

theorem isStep_of_steps {location : Location} {step : Bytes} (present : step ∈ steps location) :
    IsStep step := by
  obtain ⟨part, kept⟩ := List.mem_filter.mp present
  obtain ⟨filled, dot⟩ : step ≠ [] ∧ step ≠ [Name.dot] := by simpa using kept
  exact ⟨filled, dot, Path.slash_of_parts location step part⟩

theorem isAbsolute_name (name : Name) : isAbsolute name.bytes = false := by
  obtain ⟨filled, _, _, whole⟩ := name.facts
  cases bytes : name.bytes with
  | nil => exact absurd bytes filled
  | cons byte rest =>
    have unequal : byte ≠ Name.slash := fun same => whole (by simp [bytes, same])
    simp [isAbsolute, unequal]

theorem isAbsolute_append {base : Location} (filled : base ≠ []) (more : Location) :
    isAbsolute (base ++ more) = isAbsolute base := by
  cases base with
  | nil => exact absurd rfl filled
  | cons byte rest => rfl

/-- A name is one step more. -/
theorem steps_join (base : Location) (name : Name) :
    steps (base.join name.bytes) = steps base ++ [name.bytes] ∧
      isAbsolute (base.join name.bytes) = isAbsolute base := by
  have relative := isAbsolute_name name
  unfold join
  by_cases empty : base = []
  · subst empty
    have none : steps [] = [] := rfl
    simp only [relative, steps_name, none, if_true, or_true, List.nil_append]
    exact ⟨trivial, rfl⟩
  · rw [if_neg (by simp [relative, empty])]
    split
    · next ends =>
      obtain ⟨front, rfl⟩ := List.getLast?_eq_some_iff.mp ends
      have nothing : steps (front ++ Name.slash :: []) = steps front := by
        have none : steps [] = [] := rfl
        rw [steps_slash, none, List.append_nil]
      have shape : front ++ [Name.slash] ++ name.bytes = front ++ Name.slash ::
          name.bytes := by simp
      exact ⟨by rw [shape, steps_slash, steps_name, nothing], isAbsolute_append empty _⟩
    · exact ⟨by rw [steps_slash, steps_name], isAbsolute_append empty _⟩

theorem origin_join (working : List Name) (base : Location) (name : Name) :
    origin working (base.join name.bytes) = origin working base := by
  rw [origin, origin, (steps_join base name).2]

theorem place_join (working : List Name) (base : Location) (name : Name) :
    place working (base.join name.bytes) = place working base ++ [name] := by
  rw [place, (steps_join base name).1, origin_join, List.foldl_append, ← place, List.foldl_cons,
    List.foldl_nil, enter_name]

/-- On the way to a name in a directory lies what is on the way to the directory. -/
theorem passes_join {working : List Name} {base : Location} {name : Name} {spot : List Name}
    (passes : Passes working (base.join name.bytes) spot) :
    Passes working base spot ∨ spot = place working base ++ [name] := by
  obtain ⟨taken, leads, rfl⟩ := passes
  rw [(steps_join base name).1] at leads
  rcases List.prefix_concat_iff.mp leads with rfl | early
  · exact .inr (by rw [← place_join, place, (steps_join base name).1])
  · exact .inl ⟨taken, early, by rw [origin_join]⟩

/-- The way to a name in a directory leads no deeper into the directory than the way there. -/
theorem passes_of_deeper {working : List Name} {base : Location} {name first second : Name}
    {rest : List Name}
    (passes : Passes working (base.join name.bytes)
      (place working base ++ first :: second :: rest)) :
    Passes working base (place working base ++ first :: second :: rest) := by
  rcases passes_join passes with passes | here
  · exact passes
  · have shorter := congrArg List.length here
    simp at shorter

theorem steps_slashes (location : Location) {slashes : Bytes}
    (only : ∀ byte ∈ slashes, byte = Name.slash) :
    steps (location ++ slashes) = steps location := by
  induction slashes generalizing location with
  | nil => rw [List.append_nil]
  | cons byte rest ih =>
    have none : steps [] = [] := rfl
    obtain ⟨rfl, later⟩ := List.forall_mem_cons.mp only
    have shape : location ++ Name.slash :: rest = location ++ Name.slash :: [] ++ rest := by simp
    rw [shape, ih _ later, steps_slash, none, List.append_nil]

theorem steps_trim (location : Location) :
    steps location.trim = steps location ∧ isAbsolute location.trim = isAbsolute location := by
  obtain ⟨slashes, only, whole⟩ : ∃ slashes : Bytes, (∀ byte ∈ slashes, byte = Name.slash) ∧
      location = (location.reverse.dropWhile (· = Name.slash)).reverse ++ slashes := by
    refine ⟨(location.reverse.takeWhile (· = Name.slash)).reverse, fun byte present => ?_, ?_⟩
    · simpa using List.mem_takeWhile_imp (List.mem_reverse.mp present)
    · rw [← List.reverse_append, List.takeWhile_append_dropWhile, List.reverse_reverse]
  unfold trim
  generalize (location.reverse.dropWhile (· = Name.slash)).reverse = trimmed at whole ⊢
  cases trimmed with
  | nil =>
    cases slashes with
    | nil => rw [whole]; exact ⟨rfl, rfl⟩
    | cons byte rest =>
      have slash : byte = Name.slash := only byte List.mem_cons_self
      have none : steps (byte :: rest) = steps [] := steps_slashes [] only
      rw [whole, List.nil_append, none, slash]
      exact ⟨rfl, rfl⟩
  | cons byte rest =>
    rw [whole, steps_slashes _ only, isAbsolute_append (List.cons_ne_nil byte rest)]
    exact ⟨rfl, rfl⟩

theorem steps_ofSteps (absolute : Bool) {taken : List Bytes} (each : ∀ step ∈ taken, IsStep step) :
    steps (ofSteps absolute taken) = taken ∧ isAbsolute (ofSteps absolute taken) = absolute := by
  have kept : taken.filter (fun part => part ≠ [] ∧ part ≠ [Name.dot]) = taken := by
    refine List.filter_eq_self.mpr fun step present => ?_
    simpa using ⟨(each step present).1, (each step present).2.1⟩
  have relative : steps ([Name.slash].intercalate taken) = taken := by
    cases taken with
    | nil => rfl
    | cons first rest =>
      have whole : ∀ step ∈ first :: rest, Name.slash ∉ step := fun step present =>
        (each step present).2.2
      rw [steps, Path.parts_eq_iff.mpr ⟨List.cons_ne_nil first rest, whole, rfl⟩, kept]
  cases absolute with
  | true =>
    have shape : ofSteps true taken = [] ++ Name.slash :: [Name.slash].intercalate taken := rfl
    have none : steps [] = [] := rfl
    rw [shape, steps_slash, none, relative]
    exact ⟨rfl, rfl⟩
  | false =>
    have shape : ofSteps false taken = [Name.slash].intercalate taken := rfl
    rw [shape]
    refine ⟨relative, ?_⟩
    cases taken with
    | nil => rfl
    | cons first rest =>
      obtain ⟨filled, _, whole⟩ := each first List.mem_cons_self
      cases first with
      | nil => exact absurd rfl filled
      | cons byte more =>
        have unequal : byte ≠ Name.slash := fun same => whole (by simp [same])
        cases rest <;> simp [isAbsolute, List.intercalate, unequal]

theorem mem_shorter {absolute : Bool} {count : Nat} {all : List Bytes} {parent : Location}
    (present : parent ∈ shorter absolute count all) : ∃ length, parent = ofSteps absolute
      (all.take length) := by
  induction count with
  | zero => cases present
  | succ count ih =>
    rcases List.mem_cons.mp present with rfl | later
    · exact ⟨count, rfl⟩
    · exact ih later

/-- A parent starts where the location does, and takes the first of its steps. -/
theorem steps_parent (working : List Name) {location parent : Location}
    (present : parent ∈ location.parents) :
    origin working parent = origin working location ∧
      ∃ length, steps parent = (steps location).take length := by
  obtain ⟨length, rfl⟩ := mem_shorter present
  have each : ∀ step ∈ (steps location).take length, IsStep step :=
    fun step held => isStep_of_steps (List.mem_of_mem_take held)
  obtain ⟨taken, start⟩ := steps_ofSteps (isAbsolute location) each
  exact ⟨by rw [origin, origin, start], length, taken⟩

end Depot.Disk.Location
