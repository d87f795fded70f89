import Depot.Proofs.Disk.Bounds

set_option autoImplicit false

namespace Depot.Disk

open Location (origin steps)

variable {items items' : List Item} {through : Bool} {goal here : List Name}
  {parts last more : List Bytes}
  {turn turn' : List Name → List Bytes → Except Refusal Found}

/-- How a directory is found: what is not followed as a name leads on to it, and a name to a
directory or to a link. -/
inductive Onward (items : List Item) (turn : List Name → List Bytes → Except Refusal Found)
    (here : List Name) (goal : List Name) (part : Bytes) (rest : List Bytes) : Prop where
  | idle (idle : part = [] ∨ part = [Name.dot])
    (onward : followTo items true turn here rest = .ok (.directory goal)) :
      Onward items turn here goal part rest
  | up (up : part = [Name.dot, Name.dot])
    (onward : followTo items true turn here.dropLast rest = .ok (.directory goal)) :
    Onward items turn here goal part rest
  | name {name : Name} (named : part = name.bytes)
    (stands : Item.thing? items (here ++ [name]) = some .directory)
    (onward : followTo items true turn (here ++ [name]) rest = .ok (.directory goal)) :
    Onward items turn here goal part rest
  | link {name : Name} {target : Location} (named : part = name.bytes)
    (stands : Item.thing? items (here ++ [name]) = some (.link target))
    (onward : turn (origin here target) (Path.parts target ++ rest) = .ok (.directory goal)) :
    Onward items turn here goal part rest

theorem onward_of_followTo {part : Bytes} {rest : List Bytes}
    (followed : followTo items true turn here (part :: rest) = .ok (.directory goal)) :
    Onward items turn here goal part rest := by
  rcases followTo_cases items true turn here part rest with
    ⟨idle, onward⟩ | ⟨up, onward⟩ | ⟨refusal, refused⟩ | ⟨name, rfl⟩
  · exact .idle idle (onward ▸ followed)
  · exact .up up (onward ▸ followed)
  · rw [refused] at followed
    cases followed
  · rw [followTo_name] at followed
    split at followed
    · split at followed <;> cases followed
    · next stands => exact .name rfl stands followed
    · split at followed <;> cases followed
    · next target stands =>
      rw [if_neg (by simp)] at followed
      exact .link rfl stands followed

theorem followTo_idle {part : Bytes} (idle : part = [] ∨ part = [Name.dot]) (rest : List Bytes) :
    followTo items through turn here (part :: rest) = followTo items through turn here rest := by
  rw [followTo, if_pos idle]

theorem followTo_up (rest : List Bytes) :
    followTo items through turn here ([Name.dot, Name.dot] :: rest) =
      followTo items through turn here.dropLast rest := by
  rw [followTo, if_neg (by decide), if_pos rfl]

theorem followTo_idles (idles : ∀ part ∈ last, part = []) :
    followTo items through turn here last = .ok (.directory here) := by
  induction last with
  | nil => rfl
  | cons part rest ih =>
    obtain ⟨empty, later⟩ := List.forall_mem_cons.mp idles
    rw [followTo_idle (.inl empty), ih later]

/-- Where some parts lead to a directory, more parts are followed from there. -/
theorem followTo_append (filled : more ≠ []) (idles : ∀ part ∈ last, part = [])
    (turns : ∀ here parts, turn here (parts ++ last) = .ok (.directory goal) →
      ∃ onward, turn' here (parts ++ more) = followTo items through onward goal more) :
    ∀ {here : List Name}, followTo items true turn here (parts ++ last) = .ok (.directory goal) →
      ∃ onward, followTo items through turn' here (parts ++ more) = followTo items through onward
        goal more := by
  induction parts with
  | nil =>
    intro here followed
    rw [List.nil_append, followTo_idles idles] at followed
    cases followed
    exact ⟨turn', rfl⟩
  | cons part rest ih =>
    intro here followed
    rw [List.cons_append] at followed ⊢
    cases onward_of_followTo followed with
    | idle idle onward =>
      rw [followTo_idle idle]
      exact ih onward
    | up up onward =>
      rw [up, followTo_up]
      exact ih onward
    | name named stands onward =>
      rw [named, followTo_name, stands]
      exact ih onward
    | link named stands onward =>
      rw [named, followTo_name, stands]
      dsimp only
      rw [if_neg (by simp [filled]), ← List.append_assoc]
      rw [← List.append_assoc] at onward
      exact turns _ _ onward

theorem follow_append (filled : more ≠ []) (idles : ∀ part ∈ last, part = []) {links : Nat} :
    ∀ {here : List Name} {parts : List Bytes},
      follow items true links here (parts ++ last) = .ok (.directory goal) →
      ∃ onward, follow items through links here (parts ++ more) = followTo items through onward
        goal more := by
  induction links with
  | zero =>
    refine fun followed => followTo_append filled idles (fun _ _ refused => ?_) followed
    cases refused
  | succ links ih => exact fun followed => followTo_append filled idles (fun _ _ => ih) followed

/-- The system takes a location: it is not empty and not too long, and holds no zero. -/
structure Allowed (location : Location) : Prop where
  zeroless : 0 ∉ location
  filled : location ≠ []
  short : location.length < maxLocation

variable {disk : Disk} {location directory : Location} {name : Name}

theorem Allowed.find (allowed : Allowed location) (disk : Disk) (through : Bool) :
    disk.find through location =
      follow disk.items through maxLinks (origin disk.working location) (Path.parts location) := by
  rw [Disk.find, if_neg allowed.zeroless, if_neg allowed.filled,
    if_neg (Nat.not_le.mpr allowed.short)]
  rfl

theorem allowed_of_find {found : Found} (there : disk.find through location = .ok found) :
    Allowed location := by
  unfold Disk.find at there
  split at there
  · cases there
  split at there
  · cases there
  split at there
  · cases there
  exact ⟨‹_›, ‹_›, Nat.not_le.mp ‹_›⟩

/-- A name is one part more, in place of what may be empty at the end. -/
theorem parts_join (filled : directory ≠ []) (name : Name) :
    ∃ front last, (∀ part ∈ last, part = []) ∧ Path.parts directory = front ++ last ∧
      Path.parts (directory.join name.bytes) = front ++ [name.bytes] := by
  obtain ⟨_, _, _, whole⟩ := name.facts
  rw [Location.join, if_neg (by simp [Location.isAbsolute_name, filled])]
  split
  · next ends =>
    obtain ⟨front, rfl⟩ := List.getLast?_eq_some_iff.mp ends
    have nothing : Path.parts [] = [[]] := rfl
    refine ⟨Path.parts front, [[]], fun part => List.mem_singleton.mp, ?_, ?_⟩
    · rw [Path.parts_slash, nothing]
    · have shape : front ++ [Name.slash] ++ name.bytes = front ++ Name.slash ::
          name.bytes := by simp
      rw [shape, Path.parts_slash, Path.parts_whole whole]
  · refine ⟨Path.parts directory, [], List.forall_mem_nil _, (List.append_nil _).symm, ?_⟩
    rw [Path.parts_slash, Path.parts_whole whole]

/-- What is found under a name in a directory that is found. -/
theorem find_join (there : disk.find true directory = .ok (.directory goal))
    (allowed : Allowed (directory.join name.bytes)) (through : Bool) :
    ∃ onward, disk.find through (directory.join name.bytes) =
      followTo disk.items through onward goal [name.bytes] := by
  have outer := allowed_of_find there
  obtain ⟨front, last, idles, whole, whole'⟩ := parts_join outer.filled name
  rw [outer.find, whole] at there
  rw [allowed.find, whole', Location.origin_join]
  exact follow_append (List.cons_ne_nil _ _) idles there

theorem find_directory_in (there : disk.find true directory = .ok (.directory goal))
    (allowed : Allowed (directory.join name.bytes))
    (stands : disk.thing? (goal ++ [name]) = some .directory)
    (through : Bool) :
    disk.find through (directory.join name.bytes) = .ok (.directory (goal ++ [name])) := by
  obtain ⟨onward, found⟩ := find_join there allowed through
  rw [thing?] at stands
  rw [found, followTo_name, stands]
  rfl

theorem isFile_in (there : disk.find true directory = .ok (.directory goal))
    (allowed : Allowed (directory.join name.bytes)) {content : Bytes}
    (stands : disk.thing? (goal ++ [name]) = some (.file content)) :
    disk.isFile (directory.join name.bytes) = true := by
  obtain ⟨onward, found⟩ := find_join there allowed true
  rw [thing?] at stands
  rw [isFile, found, followTo_name, stands]
  rfl

section Lasting

variable (below : List Name → Prop)
  (same : ∀ spot, ¬ below spot → Item.thing? items' spot = Item.thing? items spot)
  (bare : ∀ spot target, below spot → Item.thing? items spot ≠ some (.link target))

/-- The way of some parts comes through nothing that is below. -/
def Apart (items : List Item) (below : List Name → Prop) (here : List Name) (parts : List Bytes) :
    Prop :=
  ∀ spot left, Walks items here (leading parts) spot left → ¬ below spot

include same bare

/-- Following the parts of a location leads to a directory again, by induction on them: nothing
changed but what is below, where the way does not come. -/
theorem followTo_lasts
    (turns : ∀ here parts, Item.thing? items here = some .directory → Apart items below here parts →
      turn here parts = .ok (.directory goal) → turn' here parts = .ok (.directory goal)) :
    ∀ {here : List Name}, Item.thing? items here = some .directory → Apart items below here parts →
      followTo items true turn here parts = .ok (.directory goal) →
      followTo items' true turn' here parts = .ok (.directory goal) := by
  induction parts with
  | nil => exact fun _ _ followed => followed
  | cons part rest ih =>
    intro here there apart followed
    cases onward_of_followTo followed with
    | idle idle onward =>
      rw [Apart, leading_idle idle] at apart
      rw [followTo_idle idle]
      exact ih there apart onward
    | up up onward =>
      subst up
      have above := thing?_dropLast there
      rw [Apart, leading_up] at apart
      rw [followTo_up]
      refine ih above (fun spot left walks => apart spot left ?_) onward
      exact .enter (by simp [enter_up, above]) (by rwa [enter_up])
    | @name name named stands onward =>
      subst named
      rw [Apart, leading_name] at apart
      have enters {spot : List Name} {left : List Bytes}
          (walks : Walks items (here ++ [name]) (leading rest) spot left) :
          Walks items here (name.bytes :: leading rest) spot left :=
        .enter (by simp [Location.enter_name, stands]) (by rwa [Location.enter_name])
      rw [followTo_name, same _ (apart _ _ (enters (.stay _ _))), stands]
      exact ih stands (fun spot left walks => apart spot left (enters walks)) onward
    | @link name target named stands onward =>
      subst named
      rw [Apart, leading_name] at apart
      rw [followTo_name, same _ fun under => bare _ target under stands, stands]
      dsimp only
      rw [if_neg (by simp)]
      refine turns _ _ (thing?_origin there target) (fun spot left walks => apart spot left ?_)
        onward
      rw [leading_target] at walks
      exact .turn (by rwa [Location.enter_name]) walks

theorem follow_lasts {links : Nat} :
    ∀ {here : List Name} {parts : List Bytes}, Item.thing? items here = some .directory →
      Apart items below here parts → follow items true links here parts = .ok (.directory goal) →
      follow items' true links here parts = .ok (.directory goal) := by
  induction links with
  | zero =>
    refine fun there apart followed => followTo_lasts below same bare (fun _ _ _ _ refused => ?_)
      there apart followed
    cases refused
  | succ links ih =>
    exact fun there apart followed => followTo_lasts below same bare (fun _ _ => ih) there
      apart followed

end Lasting

/-- A directory is found again if all that changed lies below it. -/
theorem Leads.find_lasts {after : Disk} {changed : List Name → Prop}
    (leads : Leads location goal disk) (bounded : Bounded changed (fun _ => False) disk after)
    (below : ∀ spot, changed spot → ∃ name rest, spot = goal ++ name :: rest)
    (there : disk.find true location = .ok (.directory goal)) :
    after.find true location = .ok (.directory goal) := by
  have allowed := allowed_of_find there
  rw [allowed.find] at there ⊢
  rw [bounded.working]
  refine follow_lasts changed (fun spot apart => ?_) (fun spot target change => ?_) leads.start
    (fun spot left walks change => ?_) there
  · rcases bounded.kept spot apart with same | ⟨never, _⟩
    · exact same
    · exact never.elim
  · obtain ⟨name, rest, rfl⟩ := below spot change
    exact leads.bare (name :: rest) target
  · obtain ⟨name, rest, same⟩ := below spot change
    exact leads.clear spot ⟨left, walks⟩ name rest same

end Depot.Disk
