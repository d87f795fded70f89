import Depot.Proofs.Build.Meaning
import Depot.Proofs.NameMap
import Mathlib.Data.List.Chain
import Mathlib.Logic.Relation

set_option autoImplicit false

namespace Depot

variable {registry : Registry} {chain chain' : List String} {plan : Plan} {name : String}

/-- A plan refers to an artifact, at any depth of directories and archives. -/
inductive Plan.Mentions : Plan → String → Prop where
  | here {plan : Plan} {name : String} (present : .leaf (.artifact name) ∈ plan) :
    Mentions plan name
  | inside {plan children : Plan} {kind : ContainerKind} {label : Name} {name : String}
    (present : .container kind label children ∈ plan) (within : Mentions children name) :
    Mentions plan name

theorem Plan.Mentions.mono {more : Plan} (mentions : plan.Mentions name) (subset : plan ⊆ more) :
    more.Mentions name := by
  cases mentions with
  | here present => exact .here (subset present)
  | inside present within => exact .inside (subset present) within

/-- What a plan refers to occurs in it before anything is included. -/
theorem Plan.Mentions.occurs (mentions : plan.Mentions name) :
    Occurs registry chain plan chain (.leaf (.artifact name)) := by
  induction mentions with
  | here present => exact .here present
  | inside present _ ih => exact .inside present ih

namespace Registry

/-- The plan of one artifact refers to another one, or to itself. -/
def Includes (registry : Registry) (outer inner : String) : Prop :=
  ∃ artifact, registry.find? outer = some artifact ∧ Plan.Mentions artifact.plan inner

/-- All that an artifact includes, directly or not, is registered, and none of it includes itself.
-/
def Resolvable (registry : Registry) (name : String) : Prop :=
  ∀ other, Relation.ReflTransGen registry.Includes name other →
    (registry.find? other).isSome = true ∧ ¬ Relation.TransGen registry.Includes other other

/-- The expansion of an artifact comes to a reference that it cannot follow, with the given fault.
-/
def StuckWith (registry : Registry) (artifact : Artifact) (fault : BuildFault) : Prop :=
  ∃ chain name, Occurs registry [artifact.name] artifact.plan chain (.leaf (.artifact name)) ∧
    registry.enter chain name = .error fault

theorem enter_eq_error {fault : BuildFault} (failed : registry.enter chain name = .error fault) :
    registry.find? name = none ∧ fault = .unknownArtifact name ∨
      name ∈ chain ∧ fault = .cycle (chain ++ [name]) := by
  unfold enter at failed
  split at failed
  · next absent =>
    cases failed
    exact .inl ⟨absent, rfl⟩
  · split at failed
    · next repeated =>
      cases failed
      exact .inr ⟨repeated, rfl⟩
    · cases failed

end Registry

/-- An expansion can go on where it came to a reference that can be followed. -/
theorem Occurs.further {chain'' : List String} {tree : Outline Ingredient} {artifact : Artifact}
    (occurs : Occurs registry chain plan chain' (.leaf (.artifact name)))
    (found : registry.find? name = some artifact) (fresh : name ∉ chain')
    (within : Occurs registry (chain' ++ [name]) artifact.plan chain'' tree) :
    Occurs registry chain plan chain'' tree := by
  generalize reference : (.leaf (.artifact name) : Outline Ingredient) = leaf at occurs
  induction occurs with
  | here present =>
    subst reference
    exact .included present found fresh within
  | inside present _ ih => exact .inside present (ih fresh within reference)
  | included present found' fresh' _ ih =>
    exact .included present found' fresh' (ih fresh within reference)

/-- No artifact is ever included in itself, and all artifacts in a chain are registered. -/
theorem Occurs.distinct {tree : Outline Ingredient}
    (occurs : Occurs registry chain plan chain' tree)
    (distinct : chain.Nodup) (known : ∀ name ∈ chain, name ∈ registry.names) :
    chain'.Nodup ∧ ∀ name ∈ chain', name ∈ registry.names := by
  induction occurs with
  | here _ => exact ⟨distinct, known⟩
  | inside _ _ ih => exact ih distinct known
  | @included chain _ _ name artifact _ _ found fresh _ ih =>
    refine ih (List.nodup_append.mpr ⟨distinct, List.nodup_singleton _, ?_⟩) fun other present => ?_
    · rintro other present _ last rfl
      exact fresh (List.mem_singleton.mp last ▸ present)
    · rcases List.mem_append.mp present with before | last
      · exact known other before
      · rw [List.mem_singleton.mp last]
        exact NameMap.mem_keys found

/-- Along a chain, each plan refers to the next artifact, and the last one to what comes after it.
-/
theorem Occurs.isChain {tree : Outline Ingredient} (occurs : Occurs registry chain plan chain' tree)
    (leads : ∀ inner, plan.Mentions inner → (chain ++ [inner]).IsChain registry.Includes) :
    chain <+: chain' ∧
      ∀ name, tree = .leaf (.artifact name) → (chain' ++ [name]).IsChain registry.Includes := by
  induction occurs with
  | here present =>
    refine ⟨List.prefix_refl _, ?_⟩
    rintro name rfl
    exact leads name (.here present)
  | inside present _ ih => exact ih fun inner within => leads inner (.inside present within)
  | @included chain _ _ name artifact _ present found _ _ ih =>
    have here := leads name (.here present)
    obtain ⟨start, rest⟩ := ih fun inner mentions => by
      refine here.append (.singleton inner) fun last final next first => ?_
      rw [List.getLast?_concat, Option.mem_some_iff] at final
      rw [List.head?_cons, Option.mem_some_iff] at first
      subst final first
      exact ⟨artifact, found, mentions⟩
    exact ⟨(List.prefix_append _ _).trans start, rest⟩

section Artifact

variable {artifact : Artifact}

/-- The chain of inclusions that leads to a reference. -/
theorem Occurs.path (registered : registry.find? artifact.name = some artifact)
    (occurs : Occurs registry [artifact.name] artifact.plan chain (.leaf (.artifact name))) :
    [artifact.name] <+: chain ∧ (chain ++ [name]).IsChain registry.Includes := by
  obtain ⟨start, rest⟩ := occurs.isChain fun inner mentions =>
    List.isChain_pair.mpr ⟨artifact, registered, mentions⟩
  exact ⟨start, rest name rfl⟩

/-- In the expansion of an artifact whose inclusions can be resolved, all references can be
followed: an artifact that is met again would include itself. -/
theorem Registry.Resolvable.not_stuck (registered : registry.find? artifact.name = some artifact)
    (resolvable : registry.Resolvable artifact.name)
    (fault : BuildFault) : ¬ registry.StuckWith artifact fault := by
  rintro ⟨chain, name, occurs, failed⟩
  obtain ⟨⟨rest, rfl⟩, path⟩ := occurs.path registered
  have reached : Relation.ReflTransGen registry.Includes artifact.name name :=
    List.relationReflTransGen_of_exists_isChain_cons _ path (by simp)
  obtain ⟨known, acyclic⟩ := resolvable name reached
  rcases Registry.enter_eq_error failed with ⟨absent, _⟩ | ⟨repeated, _⟩
  · rw [absent] at known
    cases known
  · -- from where the artifact is in the chain, the chain leads back to it
    obtain ⟨front, back, whole⟩ := List.append_of_mem repeated
    rw [whole, List.append_assoc] at path
    have again : (name :: (back ++ [name])).IsChain registry.Includes := path.right_of_append
    obtain ⟨next, first⟩ : ∃ next, (back ++ [name]).head? = some next :=
      ⟨_, List.head?_eq_some_head (by simp)⟩
    obtain ⟨others, split⟩ := List.head?_eq_some_iff.mp first
    rw [split] at again
    refine acyclic (.head' (List.isChain_cons_cons.mp again).1 ?_)
    refine List.relationReflTransGen_of_exists_isChain_cons _ (List.isChain_cons_cons.mp again).2 ?_
    simp only [← split, List.getLast_concat]

/-- The expansion of an artifact gets to the plan of the last artifact of a chain, and comes to all
references in it. -/
def Registry.Arrives (registry : Registry) (artifact : Artifact) (chain : List String)
    (last : String) :
    Prop :=
  chain.getLast? = some last ∧ ∃ outer, registry.find? last = some outer ∧
    ∀ inner, Plan.Mentions outer.plan inner →
      Occurs registry [artifact.name] artifact.plan chain (.leaf (.artifact inner))

theorem Registry.Arrives.step {last next : String} (arrives : registry.Arrives artifact chain last)
    (free : ∀ fault, ¬ registry.StuckWith artifact fault) (includes : registry.Includes last next) :
    next ∉ chain ∧ registry.Arrives artifact (chain ++ [next]) next := by
  obtain ⟨_, outer, found, comes⟩ := arrives
  obtain ⟨outer', found', mentions⟩ := includes
  obtain rfl := Option.some.inj (found.symm.trans found')
  have occurs := comes next mentions
  cases entered : registry.enter chain next with
  | error fault => exact absurd ⟨chain, next, occurs, entered⟩ (free fault)
  | ok plan =>
    obtain ⟨inner, found, fresh, rfl⟩ := Registry.enter_eq_ok.mp entered
    exact ⟨fresh, List.getLast?_concat, inner, found, fun name mentions =>
      occurs.further found fresh mentions.occurs⟩

/-- Following references from where the expansion is, it never comes to an artifact of the chain. -/
theorem Registry.Arrives.follow {last next : String}
    (arrives : registry.Arrives artifact chain last)
    (free : ∀ fault, ¬ registry.StuckWith artifact fault)
    (path : Relation.TransGen registry.Includes last next) :
    next ∉ chain ∧ ∃ more, registry.Arrives artifact (chain ++ more) next := by
  induction path with
  | single includes =>
    obtain ⟨fresh, arrives⟩ := arrives.step free includes
    exact ⟨fresh, _, arrives⟩
  | @tail _ next _ includes ih =>
    obtain ⟨_, more, between⟩ := ih
    obtain ⟨fresh, arrives⟩ := between.step free includes
    refine ⟨fun present => fresh (List.mem_append_left _ present), more ++ [next], ?_⟩
    rwa [← List.append_assoc]

/-- If the inclusions of an artifact cannot be resolved, its expansion gets stuck: otherwise it
would arrive at everything that is included, and never twice at the same. -/
theorem Registry.exists_stuck (registered : registry.find? artifact.name = some artifact)
    (unresolvable : ¬ registry.Resolvable artifact.name) :
    ∃ fault, registry.StuckWith artifact fault := by
  by_contra stuck
  have free : ∀ fault, ¬ registry.StuckWith artifact fault :=
    fun fault found => stuck ⟨fault, found⟩
  have begins : registry.Arrives artifact [artifact.name] artifact.name :=
    ⟨rfl, artifact, registered, fun _ mentions => mentions.occurs⟩
  refine unresolvable fun other reached => ?_
  obtain ⟨chain, arrives⟩ : ∃ chain, registry.Arrives artifact chain other := by
    rcases Relation.reflTransGen_iff_eq_or_transGen.mp reached with rfl | path
    · exact ⟨_, begins⟩
    · exact ⟨_, (begins.follow free path).2.choose_spec⟩
  have ⟨last, outer, found, _⟩ := arrives
  refine ⟨by rw [found]; rfl, fun cycle => ?_⟩
  exact (arrives.follow free cycle).1 (List.mem_of_getLast? last)

end Artifact

end Depot
