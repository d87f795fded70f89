import Depot.Outline

set_option autoImplicit false

namespace Depot.Outline

variable {α : Type}

mutual

/-- Induction on a tree, with what holds of all trees in a container. -/
theorem induct {motive : Outline α → Prop} (leaf : ∀ value, motive (.leaf value))
    (container : ∀ kind name children, (∀ child ∈ children, motive child) →
      motive (.container kind name children)) : (tree : Outline α) → motive tree
  | .leaf value => leaf value
  | .container kind name children =>
    container kind name children (inductEach leaf container children)

theorem inductEach {motive : Outline α → Prop} (leaf : ∀ value, motive (.leaf value))
    (container : ∀ kind name children, (∀ child ∈ children, motive child) →
      motive (.container kind name children)) :
    (trees : List (Outline α)) → ∀ tree ∈ trees, motive tree
  | [], _, present => nomatch present
  | first :: rest, tree, present => by
    have here := induct leaf container first
    rcases List.mem_cons.mp present with same | later
    · exact same ▸ here
    · exact inductEach leaf container rest tree later

end

mutual

def names : Outline α → List Name
  | leaf _ => []
  | container _ name children => name :: namesEach children

def namesEach : List (Outline α) → List Name
  | [] => []
  | tree :: rest => names tree ++ namesEach rest

end

/-- There is nothing to go into where no container has the kind and name. -/
theorem cut?_eq_none {kind : ContainerKind} {name : Name} {trees : List (Outline α)}
    (absent : ∀ children, .container kind name children ∉ trees) : cut? kind name trees = none := by
  induction trees with
  | nil => rfl
  | cons tree rest ih =>
    have later : cut? kind name rest = none :=
      ih fun children present => absent children (List.mem_cons_of_mem _ present)
    cases tree with
    | leaf value => simp only [cut?, later, Option.map_none]
    | container kind' name' children =>
      have other : ¬ (kind' = kind ∧ name' = name) := by
        rintro ⟨rfl, rfl⟩
        exact absent children List.mem_cons_self
      simp only [cut?, other, if_false, later, Option.map_none]

namespace Builder

variable {kind : ContainerKind} {text : String} {name : Name} {trees : List (Outline α)}

/-- A builder goes into a new container where there is none of its kind and name. -/
theorem enter_anew (named : Name.ofString text = .ok name)
    (absent : ∀ children, .container kind name children ∉ trees) (frames : List (Frame α)) :
    (⟨⟨trees, frames⟩, none⟩ : Builder α).enter kind text =
      ⟨⟨[], { kind, name, before := trees, after := [] } :: frames⟩, none⟩ := by
  simp only [enter, named, Cursor.enter, cut?_eq_none absent]

/-- Going back puts a new container behind its siblings. -/
theorem leave_last (inner : List (Outline α)) (frames : List (Frame α)) :
    (⟨⟨inner, { kind, name, before := trees, after := [] } :: frames⟩, none⟩ : Builder α).leave =
      ⟨⟨trees ++ [.container kind name inner], frames⟩, none⟩ :=
  rfl

end Builder

end Depot.Outline
