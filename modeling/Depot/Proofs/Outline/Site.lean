import Depot.Proofs.Outline

set_option autoImplicit false

namespace Depot.Outline

variable {α : Type}

/-- A call on a builder: a leaf, or what is wrong with it, a container to go into, or the way back.
-/
inductive Call (α : Type) where
  | leaf (value : Except Fault α)
  | enter (kind : ContainerKind) (text : String)
  | leave

namespace Builder

def call (builder : Builder α) : Call α → Builder α
  | .leaf (.ok value) => builder.add value
  | .leaf (.error fault) => builder.fail fault
  | .enter kind text => builder.enter kind text
  | .leave => builder.leave

def calls (builder : Builder α) (made : List (Call α)) : Builder α :=
  made.foldl call builder

end Builder

abbrev Key := ContainerKind × Name

def key? : Outline α → Option Key
  | leaf _ => none
  | container kind name _ => some (kind, name)

/-- The keys of the containers in a list, but not of those inside of them. -/
def keys (trees : List (Outline α)) : List Key :=
  trees.filterMap key?

def alterFirst (key : Key) (change : List (Outline α) → List (Outline α)) :
    List (Outline α) → List (Outline α)
  | [] => []
  | tree :: rest =>
    match tree with
    | leaf _ => tree :: alterFirst key change rest
    | container kind name children =>
      if (kind, name) = key then container kind name (change children) :: rest
      else tree :: alterFirst key change rest

def alter (change : List (Outline α) → List (Outline α)) :
    List Key → List (Outline α) → List (Outline α)
  | [] => change
  | key :: path => alterFirst key (alter change path)

/-- Appends an empty container, unless there is one of its kind and name. -/
def ensure (kind : ContainerKind) (name : Name) (trees : List (Outline α)) : List (Outline α) :=
  if (kind, name) ∈ keys trees then trees else trees ++ [container kind name []]

/-- A whole tree with a place in it: the containers on the way to the place, the outermost first. -/
structure Site (α : Type) where
  trees : List (Outline α)
  path : List Key

namespace Site

def start : Site α := ⟨[], []⟩

/-- Changes what the container at the place holds. -/
def change (site : Site α) (change : List (Outline α) → List (Outline α)) : Site α :=
  { site with trees := alter change site.path site.trees }

/-- Goes into the container of the given kind and name, which is there by then. -/
def enter (site : Site α) (kind : ContainerKind) (name : Name) : Site α :=
  { site.change (ensure kind name) with path := site.path ++ [(kind, name)] }

/-- Does what a call asks for. -/
def obey (site : Site α) : Call α → Except Fault (Site α)
  | .leaf (.ok value) => .ok (site.change (· ++ [leaf value]))
  | .leaf (.error fault) => .error fault
  | .enter kind text =>
    match Name.ofString text with
    | .ok name => .ok (site.enter kind name)
    | .error error => .error (.invalidName text error)
  | .leave =>
    if site.path = [] then .error .unmatchedEnd else .ok { site with path := site.path.dropLast }

/-- Follows calls from the empty tree on, up to the first that is wrong. -/
def follow (made : List (Call α)) : Except Fault (Site α) :=
  made.foldlM obey start

end Site

section Keys

variable {key : Key} {change : List (Outline α) → List (Outline α)}
  {before trees : List (Outline α)} {kind : ContainerKind} {name : Name}

@[simp] theorem keys_leaf (value : α) (rest : List (Outline α)) :
    keys (leaf value :: rest) = keys rest :=
  rfl

@[simp] theorem keys_container (children rest : List (Outline α)) :
    keys (container kind name children :: rest) = (kind, name) :: keys rest :=
  rfl

@[simp] theorem keys_append (first second : List (Outline α)) :
    keys (first ++ second) = keys first ++ keys second :=
  List.filterMap_append

theorem keys_alterFirst (key : Key) (change : List (Outline α) → List (Outline α))
    (trees : List (Outline α)) : keys (alterFirst key change trees) = keys trees := by
  fun_induction alterFirst key change trees with
  | case1 => rfl
  | case2 rest value ih => rw [keys_leaf, keys_leaf, ih]
  | case3 => rfl
  | case4 rest kind name children other ih => rw [keys_container, keys_container, ih]

theorem alterFirst_append (absent : key ∉ keys before) (rest : List (Outline α)) :
    alterFirst key change (before ++ rest) = before ++ alterFirst key change rest := by
  induction before with
  | nil => rfl
  | cons tree before ih =>
    cases tree with
    | leaf value => simpa [alterFirst] using ih absent
    | container kind name children =>
      rw [keys_container, List.mem_cons, not_or] at absent
      obtain ⟨other, later⟩ := absent
      simpa [alterFirst, Ne.symm other] using ih later

/-- What is changed is the first container with the key, where it is. -/
theorem alterFirst_here (absent : (kind, name) ∉ keys before) (children after : List (Outline α)) :
    alterFirst (kind, name) change (before ++ container kind name children :: after) =
      before ++ container kind name (change children) :: after := by
  rw [alterFirst_append absent, alterFirst, if_pos rfl]

theorem mem_keys : (kind, name) ∈ keys trees ↔ ∃ inner, container kind name inner ∈ trees := by
  rw [keys, List.mem_filterMap]
  constructor
  · rintro ⟨tree, present, same⟩
    cases tree with
    | leaf value => cases same
    | container kind' name' inner =>
      cases same
      exact ⟨inner, present⟩
  · rintro ⟨inner, present⟩
    exact ⟨_, present, rfl⟩

/-- A list is cut where the first container of the kind and name is, if there is any. -/
theorem cut?_cases (kind : ContainerKind) (name : Name) (trees : List (Outline α)) :
    cut? kind name trees = none ∧ (kind, name) ∉ keys trees ∨
      ∃ before inner after, cut? kind name trees = some (before, inner, after) ∧
        trees = before ++ container kind name inner :: after ∧ (kind, name) ∉ keys before := by
  induction trees with
  | nil => exact .inl ⟨rfl, List.not_mem_nil⟩
  | cons tree rest ih =>
    by_cases here : ∃ inner, tree = container kind name inner
    · obtain ⟨inner, rfl⟩ := here
      exact .inr ⟨[], inner, rest, by simp [cut?], rfl, List.not_mem_nil⟩
    · have passes : cut? kind name (tree :: rest) =
          (cut? kind name rest).map (Prod.map (tree :: ·) id) := by
        cases tree with
        | leaf value => rfl
        | container kind' name' children =>
          have other : ¬ (kind' = kind ∧ name' = name) := by
            rintro ⟨rfl, rfl⟩
            exact here ⟨children, rfl⟩
          exact if_neg other
      have absent {later : List (Outline α)} (absent : (kind, name) ∉ keys later) :
          (kind, name) ∉ keys (tree :: later) := by
        rw [mem_keys] at absent ⊢
        rintro ⟨inner, present⟩
        rcases List.mem_cons.mp present with same | later
        · exact here ⟨inner, same.symm⟩
        · exact absent ⟨inner, later⟩
      rcases ih with ⟨nowhere, missing⟩ | ⟨before, inner, after, found, rfl, missing⟩
      · exact .inl ⟨by rw [passes, nowhere, Option.map_none], absent missing⟩
      · have cut : cut? kind name (tree :: (before ++ container kind name inner :: after)) =
            some (tree :: before, inner, after) := by
          rw [passes, found]
          rfl
        exact .inr ⟨tree :: before, inner, after, cut, rfl, absent missing⟩

end Keys

def Frame.key (frame : Frame α) : Key :=
  (frame.kind, frame.name)

namespace Cursor

/-- The whole tree around a cursor, with the place where it is. -/
def site (cursor : Cursor α) : Site α :=
  ⟨cursor.trees, (cursor.frames.map Frame.key).reverse⟩

/-- Nothing before an open container has its kind and name, so its path leads to it. -/
def Leads (cursor : Cursor α) : Prop :=
  ∀ frame ∈ cursor.frames, frame.key ∉ keys frame.before

variable {cursor : Cursor α}

theorem alter_restore {frame : Frame α} (leads : frame.key ∉ keys frame.before)
    (change : List (Outline α) → List (Outline α)) (path : List Key) (children : List (Outline α)) :
    alter change (frame.key :: path) (restore children frame) =
      restore (alter change path children) frame :=
  alterFirst_here leads children frame.after

/-- What the path of a cursor leads to is what its open container holds. -/
theorem alter_trees {frames : List (Frame α)} {children : List (Outline α)}
    (leads : Leads ⟨children, frames⟩) (change : List (Outline α) → List (Outline α))
    (path : List Key) :
    alter change ((frames.map Frame.key).reverse ++ path) (trees ⟨children, frames⟩) =
      trees ⟨alter change path children, frames⟩ := by
  -- the outer containers are put back last, and come first on the path
  induction frames generalizing children path with
  | nil => rfl
  | cons frame outer ih =>
    obtain ⟨here, around⟩ := List.forall_mem_cons.mp leads
    rw [List.map_cons, List.reverse_cons, List.append_assoc]
    show alter change ((outer.map Frame.key).reverse ++ frame.key :: path)
      (trees ⟨restore children frame, outer⟩) =
        trees ⟨restore (alter change path children) frame, outer⟩
    rw [ih around, alter_restore here]

theorem change_site {frames : List (Frame α)} {children : List (Outline α)}
    (leads : Leads ⟨children, frames⟩) (change : List (Outline α) → List (Outline α)) :
    (site ⟨children, frames⟩).change change = site ⟨change children, frames⟩ := by
  have changed := alter_trees leads change []
  rw [List.append_nil] at changed
  exact congrArg (Site.mk · _) changed

theorem enter_site (leads : cursor.Leads) (kind : ContainerKind) (name : Name) :
    (cursor.enter kind name).site = cursor.site.enter kind name ∧
      (cursor.enter kind name).Leads := by
  obtain ⟨children, frames⟩ := cursor
  rw [Site.enter, change_site leads]
  rcases cut?_cases kind name children with
    ⟨nowhere, missing⟩ | ⟨before, inner, after, found, rfl, missing⟩
  · have entered : enter ⟨children, frames⟩ kind name =
        ⟨[], { kind, name, before := children, after := [] } :: frames⟩ := by
      simp only [enter, nowhere]
    rw [entered, ensure, if_neg missing]
    exact ⟨congrArg (Site.mk _) List.reverse_cons, List.forall_mem_cons.mpr ⟨missing, leads⟩⟩
  · have entered : enter ⟨before ++ container kind name inner :: after, frames⟩ kind name =
        ⟨inner, { kind, name, before, after } :: frames⟩ := by
      simp only [enter, found]
    have present : (kind, name) ∈ keys (before ++ container kind name inner :: after) :=
      mem_keys.mpr ⟨inner, by simp⟩
    rw [entered, ensure, if_pos present]
    exact ⟨congrArg (Site.mk _) List.reverse_cons, List.forall_mem_cons.mpr ⟨missing, leads⟩⟩

theorem leave?_site (leads : cursor.Leads) :
    cursor.leave? = none ∧ cursor.site.path = [] ∨
      ∃ outer, cursor.leave? = some outer ∧ cursor.site.path ≠ [] ∧
        outer.site = { cursor.site with path := cursor.site.path.dropLast } ∧ outer.Leads := by
  obtain ⟨children, frames⟩ := cursor
  cases frames with
  | nil => exact .inl ⟨rfl, rfl⟩
  | cons frame frames =>
    have path : (site ⟨children, frame :: frames⟩).path =
        (frames.map Frame.key).reverse ++ [frame.key] := List.reverse_cons
    refine .inr ⟨⟨restore children frame, frames⟩, rfl, ?_, ?_, (List.forall_mem_cons.mp leads).2⟩
    · rw [path]
      exact List.append_ne_nil_of_right_ne_nil _ (List.cons_ne_nil _ _)
    · rw [path, List.dropLast_concat]
      rfl

end Cursor

namespace Builder

/-- The whole tree with the place of a builder, unless a call was wrong. -/
def site (builder : Builder α) : Except Fault (Site α) :=
  match builder.fault? with
  | some fault => .error fault
  | none => .ok builder.cursor.site

theorem finish_eq_site (builder : Builder α) : builder.finish = builder.site.map Site.trees := by
  rw [finish, site]
  cases builder.fault? <;> rfl

section Step

variable {builder : Builder α} {made : Call α} {fault : Fault}

theorem site_fail (wrong : builder.cursor.site.obey made = .error fault) :
    (builder.fail fault).site = (builder.site >>= fun site => site.obey made) := by
  obtain ⟨cursor, fault?⟩ := builder
  cases fault? with
  | none => exact wrong.symm
  | some earlier => rfl

theorem site_move {cursor : Cursor α} (right : builder.cursor.site.obey made = .ok cursor.site) :
    site { builder with cursor } = (builder.site >>= fun site => site.obey made) := by
  obtain ⟨before, fault?⟩ := builder
  cases fault? with
  | none => exact right.symm
  | some earlier => rfl

/-- A call on a builder is that call at its place in the whole tree, if none before was wrong. -/
theorem call_site (leads : builder.cursor.Leads) (made : Call α) :
    (builder.call made).site = (builder.site >>= fun site => site.obey made) ∧
      (builder.call made).cursor.Leads := by
  match made with
  | .leaf (.ok value) =>
    have pushed := Cursor.change_site leads (· ++ [leaf value])
    exact ⟨site_move (congrArg Except.ok pushed), leads⟩
  | .leaf (.error fault) => exact ⟨site_fail rfl, leads⟩
  | .enter kind text =>
    rw [call, enter]
    cases named : Name.ofString text with
    | error error =>
      have refused : builder.cursor.site.obey (.enter kind text) =
          .error (.invalidName text error) := by simp only [Site.obey, named]
      exact ⟨site_fail refused, leads⟩
    | ok name =>
      obtain ⟨entered, leads⟩ := Cursor.enter_site leads kind name
      have accepted : builder.cursor.site.obey (.enter kind text) =
          .ok (builder.cursor.enter kind name).site := by simp only [Site.obey, named, entered]
      exact ⟨site_move accepted, leads⟩
  | .leave =>
    rw [call, leave]
    rcases Cursor.leave?_site leads with ⟨stuck, top⟩ | ⟨outer, left, inside, back, leads⟩
    · rw [stuck]
      exact ⟨site_fail (if_pos top), leads⟩
    · rw [left]
      exact ⟨site_move ((if_neg inside).trans (congrArg Except.ok back.symm)), leads⟩

end Step

/-- Calls on a builder are these calls at its place in the whole tree. -/
theorem calls_site {builder : Builder α} (leads : builder.cursor.Leads) (made : List (Call α)) :
    (builder.calls made).site = (builder.site >>= fun site => made.foldlM Site.obey site) := by
  induction made generalizing builder with
  | nil => exact (bind_pure builder.site).symm
  | cons first rest ih =>
    obtain ⟨here, leads⟩ := call_site leads first
    calc
      _ = ((builder.call first).site >>= fun site => rest.foldlM Site.obey site) := ih leads
      _ = (builder.site >>= fun site => site.obey first >>= fun site =>
        rest.foldlM Site.obey site) := by
        rw [here, bind_assoc]
      _ = _ := by simp only [List.foldlM_cons]

/-- What a builder makes of some calls is what following them makes of the empty tree. -/
theorem finish_calls (made : List (Call α)) :
    (start.calls made).finish = (Site.follow made).map Site.trees := by
  have leads : (start : Builder α).cursor.Leads := List.forall_mem_nil _
  rw [finish_eq_site, calls_site leads]
  rfl

end Builder

end Depot.Outline
