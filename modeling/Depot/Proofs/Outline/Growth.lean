import Depot.Proofs.Outline.Site
import Depot.Proofs.Outcome

set_option autoImplicit false

namespace Depot.Outline

variable {α : Type}

mutual

/-- A tree that is the same up to trees that were added at the ends of containers. -/
inductive Grown : Outline α → Outline α → Prop where
  | leaf (value : α) : Grown (leaf value) (leaf value)
  | container {kind : ContainerKind} {name : Name} {before after : List (Outline α)}
    (children : GrownEach before after) :
    Grown (container kind name before) (container kind name after)

/-- Grown trees in the same positions, and maybe more trees behind them. -/
inductive GrownEach : List (Outline α) → List (Outline α) → Prop where
  | added (more : List (Outline α)) : GrownEach [] more
  | kept {first later : Outline α} {before after : List (Outline α)} (here : Grown first later)
    (rest : GrownEach before after) : GrownEach (first :: before) (later :: after)

end

/-- No container in a tree holds two containers of one kind and name. -/
inductive Distinct : Outline α → Prop where
  | leaf (value : α) : Distinct (leaf value)
  | container {kind : ContainerKind} {name : Name} {children : List (Outline α)}
    (once : (keys children).Nodup) (inner : ∀ child ∈ children, Distinct child) :
    Distinct (container kind name children)

/-- Trees of which this holds, and no two of them are containers of one kind and name. -/
structure DistinctEach (trees : List (Outline α)) : Prop where
  once : (keys trees).Nodup
  inner : ∀ tree ∈ trees, Distinct tree

variable {key : Key} {change : List (Outline α) → List (Outline α)} {trees : List (Outline α)}
  {path : List Key}

section Grown

mutual

theorem Grown.refl : (tree : Outline α) → Grown tree tree
  | .leaf value => .leaf value
  | .container _ _ children => .container (GrownEach.refl children)

theorem GrownEach.refl : (trees : List (Outline α)) → GrownEach trees trees
  | [] => .added []
  | first :: rest => .kept (Grown.refl first) (GrownEach.refl rest)

end

mutual

theorem Grown.trans {first second third : Outline α} :
    Grown first second → Grown second third → Grown first third
  | .leaf value, .leaf _ => .leaf value
  | .container early, .container late => .container (early.trans late)

theorem GrownEach.trans {first second third : List (Outline α)} :
    GrownEach first second → GrownEach second third → GrownEach first third
  | .added _, _ => .added third
  | .kept early earlier, .kept late later => .kept (early.trans late) (earlier.trans later)

end

theorem GrownEach.append (trees more : List (Outline α)) : GrownEach trees (trees ++ more) := by
  induction trees with
  | nil => exact .added more
  | cons first rest ih => exact .kept (.refl first) ih

theorem GrownEach.alterFirst (grows : ∀ children, GrownEach children (change children)) :
    GrownEach trees (alterFirst key change trees) := by
  fun_induction Outline.alterFirst key change trees with
  | case1 => exact .added []
  | case2 rest value ih => exact .kept (.leaf value) ih
  | case3 rest kind name children => exact .kept (.container (grows children)) (.refl rest)
  | case4 rest kind name children other ih => exact .kept (.refl _) ih

theorem GrownEach.alter (grows : ∀ children, GrownEach children (change children)) (path : List Key)
    (trees : List (Outline α)) : GrownEach trees (alter change path trees) := by
  induction path generalizing trees with
  | nil => exact grows trees
  | cons key path ih => exact .alterFirst ih

end Grown

section Distinct

theorem DistinctEach.alterFirst (distinct : DistinctEach trees)
    (keeps : ∀ children, DistinctEach children → DistinctEach (change children)) :
    DistinctEach (alterFirst key change trees) := by
  refine ⟨keys_alterFirst key change trees ▸ distinct.once, ?_⟩
  obtain ⟨-, inner⟩ := distinct
  fun_induction Outline.alterFirst key change trees with
  | case1 => exact inner
  | case2 rest value ih =>
    obtain ⟨here, later⟩ := List.forall_mem_cons.mp inner
    exact List.forall_mem_cons.mpr ⟨here, ih later⟩
  | case3 rest kind name children =>
    obtain ⟨here, later⟩ := List.forall_mem_cons.mp inner
    cases here with
    | container once inner =>
      obtain ⟨once, inner⟩ := keeps children ⟨once, inner⟩
      exact List.forall_mem_cons.mpr ⟨.container once inner, later⟩
  | case4 rest kind name children other ih =>
    obtain ⟨here, later⟩ := List.forall_mem_cons.mp inner
    exact List.forall_mem_cons.mpr ⟨here, ih later⟩

theorem DistinctEach.alter
    (keeps : ∀ children, DistinctEach children → DistinctEach (change children)) (path : List Key)
    {trees : List (Outline α)} (distinct : DistinctEach trees) :
    DistinctEach (alter change path trees) := by
  induction path generalizing trees with
  | nil => exact keeps trees distinct
  | cons key path ih => exact distinct.alterFirst fun children inner => ih inner

theorem DistinctEach.add {tree : Outline α} (distinct : DistinctEach trees)
    (once : (keys (trees ++ [tree])).Nodup) (inner : Distinct tree) :
    DistinctEach (trees ++ [tree]) := by
  refine ⟨once, ?_⟩
  rw [List.forall_mem_append, List.forall_mem_singleton]
  exact ⟨distinct.inner, inner⟩

theorem DistinctEach.leaf (distinct : DistinctEach trees) (value : α) :
    DistinctEach (trees ++ [leaf value]) := by
  have once : keys (trees ++ [.leaf value]) = keys trees := by
    rw [keys_append, keys_leaf]
    exact List.append_nil _
  exact distinct.add (once ▸ distinct.once) (.leaf value)

theorem DistinctEach.ensure (distinct : DistinctEach trees) (kind : ContainerKind) (name : Name) :
    DistinctEach (ensure kind name trees) := by
  rw [Outline.ensure]
  split
  case isTrue present => exact distinct
  case isFalse absent =>
    have once : (keys (trees ++ [container kind name []])).Nodup := by
      rw [keys_append, keys_container, List.nodup_append]
      refine ⟨distinct.once, List.nodup_cons.mpr ⟨List.not_mem_nil, List.nodup_nil⟩, ?_⟩
      intro key here other there
      rw [List.mem_singleton.mp there]
      rintro rfl
      exact absent here
    exact distinct.add once (.container List.nodup_nil (List.forall_mem_nil _))

end Distinct

namespace Site

variable {site next : Site α} {call : Call α} {made : List (Call α)}

/-- All that a call does to the tree: it adds a leaf where the place is, or a container if there is
none like it, or nothing. -/
theorem obey_cases (obeyed : site.obey call = .ok next) :
    (∃ value, next.trees = alter (· ++ [leaf value]) site.path site.trees) ∨
      (∃ kind name, next.trees = alter (ensure kind name) site.path site.trees) ∨
      next.trees = site.trees := by
  match call with
  | .leaf (.ok value) =>
    cases obeyed
    exact .inl ⟨value, rfl⟩
  | .enter kind text =>
    rw [obey] at obeyed
    split at obeyed
    case h_1 name named =>
      cases obeyed
      exact .inr (.inl ⟨kind, name, rfl⟩)
    case h_2 error wrong => cases obeyed
  | .leave =>
    rw [obey] at obeyed
    split at obeyed
    case isTrue top => cases obeyed
    case isFalse inside =>
      cases obeyed
      exact .inr (.inr rfl)

theorem obey_grown (obeyed : site.obey call = .ok next) : GrownEach site.trees next.trees := by
  rcases obey_cases obeyed with ⟨value, grown⟩ | ⟨kind, name, grown⟩ | same
  · rw [grown]
    exact .alter (fun children => .append children _) _ _
  · rw [grown]
    refine .alter (fun children => ?_) _ _
    rw [ensure]
    split
    · exact .refl children
    · exact .append children _
  · exact same ▸ .refl site.trees

theorem obey_distinct (distinct : DistinctEach site.trees) (obeyed : site.obey call = .ok next) :
    DistinctEach next.trees := by
  rcases obey_cases obeyed with ⟨value, grown⟩ | ⟨kind, name, grown⟩ | same
  · rw [grown]
    exact .alter (fun _ inner => inner.leaf value) _ distinct
  · rw [grown]
    exact .alter (fun _ inner => inner.ensure kind name) _ distinct
  · exact same ▸ distinct

/-- Following more calls, what is already there stays where it is. -/
theorem foldlM_grown (followed : made.foldlM obey site = .ok next) :
    GrownEach site.trees next.trees := by
  induction made generalizing site with
  | nil =>
    cases followed
    exact .refl _
  | cons first rest ih =>
    rw [List.foldlM_cons] at followed
    obtain ⟨middle, here, later⟩ := bind_ok_iff.mp followed
    exact (obey_grown here).trans (ih later)

theorem foldlM_distinct (distinct : DistinctEach site.trees)
    (followed : made.foldlM obey site = .ok next) : DistinctEach next.trees := by
  induction made generalizing site with
  | nil =>
    cases followed
    exact distinct
  | cons first rest ih =>
    rw [List.foldlM_cons] at followed
    obtain ⟨middle, here, later⟩ := bind_ok_iff.mp followed
    exact ih (obey_distinct distinct here) later

theorem follow_distinct (followed : follow made = .ok site) : DistinctEach site.trees := by
  have empty : DistinctEach (start : Site α).trees := ⟨List.nodup_nil, List.forall_mem_nil _⟩
  exact foldlM_distinct empty followed

/-- Calls that can be followed begin with calls that can, and the tree of these is still there. -/
theorem follow_append {later : List (Call α)} (followed : follow (made ++ later) = .ok next) :
    ∃ site, follow made = .ok site ∧ GrownEach site.trees next.trees := by
  rw [follow, List.foldlM_append] at followed
  obtain ⟨site, early, rest⟩ := bind_ok_iff.mp followed
  exact ⟨site, early, foldlM_grown rest⟩

end Site

end Depot.Outline
