import Depot.Proofs.Build.Layers
import Depot.Proofs.Build.Settled

set_option autoImplicit false

namespace Depot.Assembler

open Slot (Reached Covered Layered)

def within (assembler : Assembler) (workspace : Workspace) : Assembler :=
  { assembler with workspace }

/-- Some slots come from others that were built before: what no change covers was there under the
same name, with an entry that is settled now. If no change concerns the dependencies, the names are
all the same. -/
structure Carried (assembler : Assembler) (before : Workspace) (pending : List Source)
    (touches : List Touch) (old slots : List Slot) : Prop where
  each : ∀ slot ∈ slots,
    (∃ changed ∈ pending, Covered assembler.workspace changed slot) ∨
      ∃ former ∈ old, former.name = slot.name ∧
        Settled assembler pending slot ((assembler.within before).complete? former)
  names : (∀ changed ∈ pending, ∀ touch ∈ touches,
    assembler.workspace.concerns changed touch = false) → slots.map Slot.name = old.map Slot.name

variable {assembler : Assembler} {before : Workspace} {pending : List Source}

theorem forall₂_of_names {relates : Slot → Entry → Prop} {slots : List Slot} {entries : List Entry}
    (names : slots.map Slot.name = entries.map Entry.name)
    (each : ∀ slot ∈ slots, ∀ entry ∈ entries, entry.name = slot.name → relates slot entry) :
    List.Forall₂ relates slots entries := by
  induction slots generalizing entries with
  | nil =>
    have empty : entries = [] := by simpa using names.symm
    exact empty ▸ .nil
  | cons slot rest ih =>
    cases entries with
    | nil => simp at names
    | cons entry others =>
      obtain ⟨name, names⟩ := List.cons.inj names
      refine .cons (each slot List.mem_cons_self entry List.mem_cons_self name.symm) ?_
      exact ih names fun other present entry held =>
        each other (List.mem_cons_of_mem _ present) entry (List.mem_cons_of_mem _ held)

theorem eq_of_name {slots : List Slot} (distinct : (slots.map Slot.name).Nodup) {left right : Slot}
    (leftHeld : left ∈ slots) (rightHeld : right ∈ slots) (same : left.name = right.name) :
    left = right := by
  induction slots with
  | nil => cases leftHeld
  | cons slot rest ih =>
    obtain ⟨fresh, distinct⟩ := List.nodup_cons.mp distinct
    rcases List.mem_cons.mp leftHeld with rfl | leftLater
    · rcases List.mem_cons.mp rightHeld with rfl | rightLater
      · rfl
      · exact absurd (same ▸ List.mem_map_of_mem rightLater) fresh
    · rcases List.mem_cons.mp rightHeld with rfl | rightLater
      · exact absurd (same ▸ List.mem_map_of_mem leftLater) fresh
      · exact ih distinct leftLater rightLater

/-- A container whose slots come from those of one that was built before is settled. -/
theorem Carried.settled {touches touches' : List Touch} {old slots : List Slot}
    (carried : Carried assembler before pending touches old slots)
    {kind : ContainerKind} {name : Name}
    (layered : Layered assembler.workspace (.container kind name touches (.ok slots)))
    (distinctOld : (old.map Slot.name).Nodup) {full : Entry}
    (complete : (assembler.within before).complete? (.container kind name touches' (.ok old)) =
      some full) :
    Settled assembler pending (.container kind name touches (.ok slots)) (some full) := by
  obtain ⟨entries, built, enclosed⟩ := complete?_container.mp complete
  have builtNames := map_eq_of_forall₂ built fun _ _ whole => name_complete? whole
  have entryOf : ∀ former ∈ old, ∃ entry,
      Entry.named? entries former.name = some entry ∧
        (assembler.within before).complete? former = some entry := by
    intro former held
    obtain ⟨entry, _, found, whole⟩ :=
      named?_of_forall₂ built (fun _ _ whole => name_complete? whole) distinctOld held
    exact ⟨entry, found, whole⟩
  cases layered with
  | container known distinct upward inner =>
    by_cases waiting : ∃ changed ∈ pending,
        Reached assembler.workspace changed (.container kind name touches (.ok slots))
    · obtain ⟨changed, present, reached⟩ := waiting
      refine .container present reached (inside?_enclose? enclosed) fun slot held => ?_
      rcases carried.each slot held with ⟨changed, present, covered⟩ | ⟨former, there,
        same, settled⟩
      · exact .covered present covered
      · obtain ⟨entry, found, whole⟩ := entryOf former there
        rw [whole] at settled
        rw [← same, found]
        exact settled
    · -- nothing is to be done here, so the old entries are those of a build of everything
      have unreached : ∀ changed ∈ pending, ∀ slot ∈ slots,
          ¬ Reached assembler.workspace changed slot := fun changed present slot held reached =>
        waiting ⟨changed, present, upward changed slot held reached⟩
      have names : slots.map Slot.name = entries.map Entry.name := by
        rw [builtNames]
        refine carried.names fun changed present touch held => ?_
        cases touched : assembler.workspace.concerns changed touch with
        | false => rfl
        | true => exact absurd ⟨changed, present, touch, held, touched⟩ waiting
      refine .whole (complete?_container.mpr ⟨entries, forall₂_of_names names ?_, enclosed⟩)
      intro slot held entry present same
      rcases carried.each slot held with ⟨changed, left, covered⟩ | ⟨former, there, name, settled⟩
      · exact absurd covered.reached (unreached changed left slot held)
      · obtain ⟨other, otherHeld, whole⟩ := exists_of_mem_right built present
        have equal : other = former := by
          refine eq_of_name distinctOld otherHeld there ?_
          rw [← name_complete? whole, same, name]
        subst equal
        rw [whole] at settled
        exact (settled.eq_complete fun changed left => unreached changed left slot held).symm

theorem Carried.append {first second : List Touch} {old more slots others : List Slot}
    (here : Carried assembler before pending first old slots)
    (there : Carried assembler before pending second more others) :
    Carried assembler before pending (first ++ second) (old ++ more) (slots ++ others) where
  each slot held := by
    rcases List.mem_append.mp held with held | held
    · refine (here.each slot held).imp_right ?_
      rintro ⟨former, there, facts⟩
      exact ⟨former, List.mem_append_left _ there, facts⟩
    · refine (there.each slot held).imp_right ?_
      rintro ⟨former, there, facts⟩
      exact ⟨former, List.mem_append_right _ there, facts⟩
  names apart := by
    rw [List.map_append, List.map_append,
      here.names fun changed present touch held =>
        apart changed present touch (List.mem_append_left _ held),
      there.names fun changed present touch held =>
        apart changed present touch (List.mem_append_right _ held)]

/-- A file that was not touched has the entry that it had. -/
theorem complete?_file (evolves : Workspace.Evolves pending before assembler.workspace)
    {name : Name} {source : Source} (absent : source ∉ pending) {full full' : Entry}
    (was : (assembler.within before).complete? (.file name source) = some full)
    (complete : assembler.complete? (.file name source) = some full') : full = full' := by
  simp only [complete?, within] at was complete
  split at was
  · next content readBefore =>
    split at complete
    · next content' readNow =>
      cases was
      cases complete
      obtain ⟨wasLive, former⟩ := Workspace.read_eq_ok.mp readBefore
      obtain ⟨_, now⟩ := Workspace.read_eq_ok.mp readNow
      rw [evolves.file?_eq wasLive absent, former] at now
      obtain ⟨content, stamp⟩ := Prod.mk.inj (Option.some.inj now)
      rw [content, stamp]
    · cases complete
  · cases was

/-- The slot of a node that was not touched is settled, given that the copy inside comes from the
one that was made before. -/
theorem childSlot_settled (evolves : Workspace.Evolves pending before assembler.workspace)
    {child : Source} (absent : child ∉ pending) (wasLive : before.isLive child = true) {name : Name}
    {depth depth' : Nat} {path path' : Path} {full full' : Entry}
    (whole : (assembler.within before).complete?
      ((assembler.within before).resolver.childSlot depth' path' child name) = some full)
    (whole' : assembler.complete? (assembler.resolver.childSlot depth path child name) = some full')
    (inner : ∀ old slots,
      (assembler.within before).resolver.copy depth' (path'.push name) child = .ok old →
      assembler.resolver.copy depth (path.push name) child = .ok slots →
      (assembler.within before).Buildable old → assembler.Buildable slots →
      Carried assembler before pending [.copy child] old slots) :
    Settled assembler pending (assembler.resolver.childSlot depth path child name) (some full) := by
  have kinds := evolves.isDirectory_eq wasLive
  rcases Resolver.childSlot_cases (resolved_of_complete whole) with
    ⟨plainBefore, then'⟩ | ⟨groupedBefore, old, then', copiedBefore, distinctBefore, _⟩
  · rcases Resolver.childSlot_cases (resolved_of_complete whole') with
      ⟨_, now⟩ | ⟨grouped, _⟩
    · rw [then'] at whole
      rw [now] at whole' ⊢
      exact complete?_file evolves absent whole whole' ▸ .whole whole'
    · exact absurd (grouped.symm.trans (kinds.trans plainBefore)) (by simp)
  · rcases Resolver.childSlot_cases (resolved_of_complete whole') with
      ⟨plain, _⟩ | ⟨_, slots, now, copied, distinct, resolved⟩
    · exact absurd (plain.symm.trans (kinds.trans groupedBefore)) (by simp)
    · rw [then'] at whole
      rw [now] at whole' ⊢
      have carried := inner old slots copiedBefore copied (buildable_of_complete whole)
        (buildable_of_complete whole')
      have spread := (Resolver.copy_spread evolves.later copied resolved).1
      exact carried.settled (spread.container .directory name distinct) distinctBefore whole

/-- The names in the copy of a directory that no change concerns are those in the copy that was made
before. -/
theorem copy_names (evolves : Workspace.Evolves pending before assembler.workspace)
    {source : Source}
    (wasLive : before.isLive source = true) (alive : assembler.workspace.isLive source = true)
    (apart : ∀ changed ∈ pending, assembler.workspace.touchesCopy changed source = false)
    {depth depth' : Nat} {path path' : Path} {old slots : List Slot}
    (copiedBefore : (assembler.within before).resolver.copy (depth' + 1) path' source = .ok old)
    (copied : assembler.resolver.copy (depth + 1) path source = .ok slots) :
    slots.map Slot.name = old.map Slot.name := by
  have same := evolves.children_eq wasLive alive apart
  obtain ⟨_, _, eachBefore⟩ := Resolver.copy_eq_ok.mp copiedBefore
  obtain ⟨_, _, each⟩ := Resolver.copy_eq_ok.mp copied
  have untouched : ∀ child ∈ before.children source, child ∉ pending := by
    intro child listed present
    have beneath := Workspace.isAncestor_parent evolves.later (same ▸ listed)
    have free := apart child present
    simp [Workspace.touchesCopy, beneath] at free
  have namedNow : List.Forall₂ (fun child slot => assembler.workspace.name child = .ok slot.name)
      (assembler.workspace.children source) slots := by
    refine each.imp ?_
    rintro child slot ⟨name, named, rfl⟩
    rw [Resolver.name_childSlot]
    exact named
  have namedThen : List.Forall₂ (fun child slot => assembler.workspace.name child = .ok slot.name)
      (before.children source) old := by
    refine ((List.forall₂_and_left _ _).mpr ⟨untouched, eachBefore⟩).imp ?_
    rintro child slot ⟨absent, name, named, rfl⟩
    rw [Resolver.name_childSlot]
    exact evolves.name_eq named absent
  have sameNames : (slots.map fun slot => (.ok slot.name : Except FileSystem.Fault Name)) =
      old.map fun slot => .ok slot.name := by
    rw [map_eq_of_forall₂ namedNow fun _ _ named => named.symm,
      map_eq_of_forall₂ namedThen fun _ _ named => named.symm, same]
  have one : Function.Injective fun name => (.ok name : Except FileSystem.Fault Name) :=
    fun _ _ => Except.ok.inj
  refine one.list_map ?_
  rw [List.map_map, List.map_map]
  exact sameNames

/-- The copy of a directory comes from the copy that was made before, at every depth. -/
theorem copy_carried (evolves : Workspace.Evolves pending before assembler.workspace)
    {depth : Nat} :
    ∀ {depth' : Nat} {path path' : Path} {source : Source} {old slots : List Slot},
      (before.home source).nodes.length < depth' + source.node →
      (assembler.workspace.home source).nodes.length < depth + source.node →
      before.isLive source = true → assembler.workspace.isLive source = true →
      (assembler.within before).resolver.copy depth' path' source = .ok old →
      assembler.resolver.copy depth path source = .ok slots →
      (assembler.within before).Buildable old → assembler.Buildable slots →
      Carried assembler before pending [.copy source] old slots := by
  induction depth with
  | zero =>
    intro depth' path path' source old slots _ deep _ alive
    have inside := FileSystem.lt_length_of_isLive alive
    lia
  | succ depth ih =>
    intro depth' path path' source old slots deep' deep wasLive alive copiedBefore
      copied was complete
    have inside := FileSystem.lt_length_of_isLive wasLive
    obtain ⟨depth', rfl⟩ : ∃ less, depth' = less + 1 := by
      cases depth' with
      | zero => lia
      | succ less => exact ⟨less, rfl⟩
    obtain ⟨_, _, eachBefore⟩ := Resolver.copy_eq_ok.mp copiedBefore
    obtain ⟨_, _, each⟩ := Resolver.copy_eq_ok.mp copied
    refine ⟨fun slot held => ?_, fun apart => ?_⟩
    · obtain ⟨child, listed, name, named, rfl⟩ := exists_of_mem_right each held
      obtain ⟨full', whole'⟩ := complete _ held
      by_cases above : ∃ changed ∈ pending, assembler.workspace.isAncestor changed child = true
      · obtain ⟨changed, present, above⟩ := above
        exact .inl ⟨changed, present,
          Resolver.childSlot_covered evolves.later (resolved_of_complete whole') above⟩
      · have absent : child ∉ pending := fun present =>
          above ⟨child, present, Workspace.isAncestor_self child⟩
        have listedBefore := evolves.was_child alive listed absent
        obtain ⟨_, there, name', named', rfl⟩ := exists_of_mem_left eachBefore listedBefore
        have now : assembler.workspace.name child = .ok name' := evolves.name_eq named' absent
        obtain rfl : name = name' := Except.ok.inj (named.symm.trans now)
        obtain ⟨full, whole⟩ := was _ there
        refine .inr ⟨_, there, by simp, ?_⟩
        rw [whole]
        have childWasLive := (Workspace.isLive_child evolves.earlier listedBefore).trans wasLive
        have childLive := (Workspace.isLive_child evolves.later listed).trans alive
        refine childSlot_settled evolves absent childWasLive whole whole' fun old slots => ?_
        have lower := Workspace.node_lt_child evolves.later listed
        have home : assembler.workspace.home child = assembler.workspace.home source :=
          Workspace.home_child listed
        have homeBefore := Workspace.home_child listedBefore
        exact ih (by rw [homeBefore]; lia) (by rw [home]; lia) childWasLive childLive
    · exact copy_names evolves wasLive alive
        (fun changed present => apart changed present _ (List.mem_singleton_self _))
          copiedBefore copied

/-- The slot for one file comes from the one that it had. -/
theorem file_carried (evolves : Workspace.Evolves pending before assembler.workspace)
    {source : Source} {name name' : Name} (named' : before.name source = .ok name')
    (named : assembler.workspace.name source = .ok name)
    (was : (assembler.within before).Buildable [.file name' source])
    (complete : assembler.Buildable [.file name source]) :
    Carried assembler before pending [.file source] [.file name' source] [.file name source] := by
  have unchanged (absent : source ∉ pending) : name = name' :=
    Except.ok.inj (named.symm.trans (evolves.name_eq named' absent))
  refine ⟨fun slot held => ?_, fun apart => ?_⟩
  · obtain rfl := List.mem_singleton.mp held
    by_cases touched : source ∈ pending
    · exact .inl ⟨source, touched, .file ⟨_, List.mem_singleton_self _,
        Workspace.isAncestor_self source⟩⟩
    · obtain rfl := unchanged touched
      obtain ⟨full, whole⟩ := was _ (List.mem_singleton_self _)
      obtain ⟨full', whole'⟩ := complete _ (List.mem_singleton_self _)
      refine .inr ⟨_, List.mem_singleton_self _, rfl, ?_⟩
      rw [whole, complete?_file evolves touched whole whole']
      exact .whole whole'
  · have absent : source ∉ pending := by
      intro present
      have free := apart source present _ (List.mem_singleton_self _)
      simp [Workspace.concerns, Workspace.touchesFile] at free
    rw [unchanged absent]

section Expand

variable {touched touched' : String → List Touch}
  {included included' : Path → String → Except BuildFault (List Slot)}

mutual

/-- The slots of one tree of a plan come from those that it had, given that those of the artifacts
in it do. -/
theorem expand_carried (evolves : Workspace.Evolves pending before assembler.workspace)
    (spreads : ∀ path name slots, included path name = .ok slots →
      (∀ slot ∈ slots, slot.Resolved) → Resolver.Spread assembler.workspace (touched name) slots)
    (carries : ∀ path path' name old slots, included' path' name = .ok old →
      included path name = .ok slots → (assembler.within before).Buildable old →
      assembler.Buildable slots → Carried assembler before pending (touched name) old slots) :
    (tree : Outline Ingredient) → ∀ {path path' : Path} {old slots : List Slot},
    (assembler.within before).resolver.expand touched' included' path' tree = .ok old →
    assembler.resolver.expand touched included path tree = .ok slots →
    (assembler.within before).Buildable old → assembler.Buildable slots →
    Carried assembler before pending (Outline.touches touched tree) old slots
  | .leaf (.file source), path, path', old, slots, expandedBefore, expanded, was, complete => by
    rw [Resolver.expand] at expandedBefore expanded
    split at expandedBefore
    · cases expandedBefore
    · next name' named' =>
      cases expandedBefore
      split at expanded
      · cases expanded
      · next name named =>
        cases expanded
        exact file_carried evolves named' named was complete
  | .leaf (.artifact name), path, path', old, slots, expandedBefore, expanded, was, complete => by
    rw [Resolver.expand] at expandedBefore expanded
    exact carries path path' name old slots expandedBefore expanded was complete
  | .leaf (.copy source), path, path', old, slots, expandedBefore, expanded, was, complete => by
    rw [Resolver.expand] at expandedBefore expanded
    have wasLive := (Resolver.copy_eq_ok.mp expandedBefore).1
    have alive := (Resolver.copy_eq_ok.mp expanded).1
    have deep : ∀ length : Nat, length < length + 1 + source.node := fun _ => by omega
    exact copy_carried evolves (deep _) (deep _) wasLive alive expandedBefore expanded was complete
  | .container kind name children, path, path', old, slots, expandedBefore, expanded, was,
      complete => by
    rw [Resolver.expand] at expandedBefore expanded
    cases expandedBefore
    cases expanded
    obtain ⟨full, whole⟩ := was _ (List.mem_singleton_self _)
    obtain ⟨full', whole'⟩ := complete _ (List.mem_singleton_self _)
    refine ⟨fun slot held => ?_, fun _ => rfl⟩
    obtain rfl := List.mem_singleton.mp held
    refine .inr ⟨_, List.mem_singleton_self _, rfl, ?_⟩
    cases contents' : (assembler.within before).resolver.distinct (path'.push name)
      ((assembler.within before).resolver.expandList touched' included' (path'.push name) children)
        with
    | error fault =>
      rw [contents'] at whole
      cases whole
    | ok former =>
      cases contents : assembler.resolver.distinct (path.push name)
        (assembler.resolver.expandList touched included (path.push name) children) with
      | error fault =>
        rw [contents] at whole'
        cases whole'
      | ok inner =>
        rw [contents'] at whole
        rw [contents] at whole'
        rw [whole]
        obtain ⟨listed', distinct'⟩ := Resolver.distinct_eq_ok.mp contents'
        obtain ⟨listed, distinct⟩ := Resolver.distinct_eq_ok.mp contents
        have buildable := buildable_of_complete whole'
        have spread := Resolver.expandList_spread evolves.later spreads children listed
          buildable.resolved
        have carried := expandList_carried evolves spreads carries children listed' listed
          (buildable_of_complete whole) buildable
        exact carried.settled (spread.container kind name distinct) distinct' whole

theorem expandList_carried (evolves : Workspace.Evolves pending before assembler.workspace)
    (spreads : ∀ path name slots, included path name = .ok slots →
      (∀ slot ∈ slots, slot.Resolved) → Resolver.Spread assembler.workspace (touched name) slots)
    (carries : ∀ path path' name old slots, included' path' name = .ok old →
      included path name = .ok slots → (assembler.within before).Buildable old →
      assembler.Buildable slots → Carried assembler before pending (touched name) old slots) :
    (plan : List (Outline Ingredient)) → ∀ {path path' : Path} {old slots : List Slot},
    (assembler.within before).resolver.expandList touched' included' path' plan = .ok old →
    assembler.resolver.expandList touched included path plan = .ok slots →
    (assembler.within before).Buildable old → assembler.Buildable slots →
    Carried assembler before pending (Outline.touchesList touched plan) old slots
  | [], path, path', old, slots, expandedBefore, expanded, _, _ => by
    rw [Resolver.expandList] at expandedBefore expanded
    cases expandedBefore
    cases expanded
    exact ⟨by simp, fun _ => rfl⟩
  | tree :: rest, path, path', old, slots, expandedBefore, expanded, was, complete => by
    simp only [Resolver.expandList, bind_ok_iff] at expandedBefore expanded
    obtain ⟨former, hereBefore, formers, thereBefore, result⟩ := expandedBefore
    cases result
    obtain ⟨first, here, others, there, result⟩ := expanded
    cases result
    have ahead := expand_carried evolves spreads carries tree hereBefore here
      (fun slot held => was slot (List.mem_append_left _ held))
      (fun slot held => complete slot (List.mem_append_left _ held))
    have behind := expandList_carried evolves spreads carries rest thereBefore there
      (fun slot held => was slot (List.mem_append_right _ held))
      (fun slot held => complete slot (List.mem_append_right _ held))
    exact ahead.append behind

end

end Expand

/-- Inclusions, by induction on the chain. -/
theorem place_carried (evolves : Workspace.Evolves pending before assembler.workspace)
    {chain : List String} : ∀ {path path' : Path} {plan : Plan} {old slots : List Slot},
      (assembler.within before).resolver.place chain path' plan = .ok old →
      assembler.resolver.place chain path plan = .ok slots →
      (assembler.within before).Buildable old → assembler.Buildable slots →
      Carried assembler before pending (assembler.registry.touches chain plan) old slots := by
  induction chain using assembler.registry.inclusion_induct with
  | step chain ih =>
    intro path path' plan old slots placedBefore placed was complete
    rw [Resolver.place] at placedBefore placed
    have same : assembler.registry.touches chain plan = _ :=
      Resolver.touches_eq assembler.resolver chain plan
    rw [same]
    refine expandList_carried evolves ?_ ?_ plan placedBefore placed was complete
    · intro path name slots included resolved
      split at included
      · cases included
      · next inner entered =>
        rw [Resolver.touched, entered]
        exact Resolver.place_spread evolves.later included resolved
    · intro path path' name old slots includedBefore included was complete
      split at included
      · cases included
      · next inner entered =>
        split at includedBefore
        · cases includedBefore
        · next inner' entered' =>
          obtain rfl : inner' = inner := Except.ok.inj (entered'.symm.trans entered)
          rw [Resolver.touched, entered]
          exact ih name inner' entered' includedBefore included was complete

/-- The output that an artifact had is settled, up to what was touched since. -/
theorem rootSlot_settled (evolves : Workspace.Evolves pending before assembler.workspace)
    {name : Name} {plan : Plan} {full full' : Entry}
    (was : (assembler.within before).complete?
      ((assembler.within before).resolver.rootSlot name plan) = some full)
    (complete : assembler.complete? (assembler.resolver.rootSlot name plan) = some full') :
    Settled assembler pending (assembler.resolver.rootSlot name plan) (some full) := by
  have layered := Resolver.rootSlot_layered evolves.later (resolved_of_complete complete)
  obtain ⟨old, contents', placedBefore, distinct', _⟩ :=
    Resolver.rootSlot_cases (resolved_of_complete was)
  obtain ⟨slots, contents, placed, _, _⟩ := Resolver.rootSlot_cases (resolved_of_complete complete)
  simp only [Resolver.rootSlot, contents', contents] at was complete layered ⊢
  have carried := place_carried evolves placedBefore placed (buildable_of_complete was)
    (buildable_of_complete complete)
  exact carried.settled layered distinct' was

end Depot.Assembler
