import Depot.Proofs.Build.Frame
import Depot.Proofs.Packager.Run

set_option autoImplicit false

namespace Depot.Packager

open Assembler (Position inside?)

variable {job : Job} {packager : Packager} {disk : Disk} {artifact : Artifact} {report : Report}

/-- The part of the report of a run that is about one artifact, which gets a new output from the one
that it had. -/
theorem run_reported (succeeded : (run job packager disk).1 = .ok report)
    (registered : artifact ∈ job.registry.artifacts.values) {previous : List Entry}
    (current : packager.current? artifact = some previous) :
    ∃ entries effort,
      (job.assembler packager.config.compression artifact.name).output job.scope artifact.plan
        (some previous) = .ok (entries, effort) ∧
      (run job packager disk).2.1.current? artifact = some entries ∧
      (Entry.listDigest job.hash previous = Entry.listDigest job.hash entries →
        artifact.name ∈ report.unchanged ∧ artifact.name ∉ report.updated) := by
  obtain ⟨own, alone, updated, unchanged⟩ := run_own succeeded registered
  have makes := alone.makes
  rw [current] at makes
  cases now : (run job packager disk).2.1.current? artifact with
  | none =>
    rw [now] at makes
    cases makes
  | some entries =>
    rw [now] at makes
    obtain ⟨effort, built⟩ := makes.built
    refine ⟨entries, effort, built, rfl, fun same => ?_⟩
    obtain ⟨none, listed⟩ := makes.of_unchanged same
    rw [updated, unchanged, none, listed]
    exact ⟨List.mem_cons_self, List.not_mem_nil⟩

/-- A run for one change that succeeds leaves the entry alone at every position of an output which
the change does not reach. If it reaches nothing at the top of an output whose entries are those of
the slots there, the output stays as it is and is reported as unchanged. -/
theorem run_keeps_unreached {source : Source} {after : Packager} {disk' : Disk}
    (succeeded : run (job.changing source) packager disk = (.ok report, after, disk'))
    (registered : artifact ∈ job.registry.artifacts.values) {previous : List Entry}
    (current : packager.current? artifact = some previous) :
    ∃ slots entries,
      (job.assembler packager.config.compression artifact.name).resolver.slots artifact.plan =
        .ok slots ∧
      after.output? artifact.name = some entries ∧
      (∀ names slot before, Position slots previous names slot →
        job.workspace.reaches source slot.touches ≠ .ok true →
        Hierarchy.find? previous ⟨names⟩ = some before →
        Hierarchy.find? entries ⟨names⟩ = some before) ∧
      ((∀ slot ∈ slots, job.workspace.reaches source slot.touches ≠ .ok true) →
        slots.map Slot.name = previous.map Entry.name →
        entries = previous ∧ artifact.name ∈ report.unchanged ∧
          artifact.name ∉ report.updated) := by
  have reported := run_reported (congrArg Prod.fst succeeded) registered current
  rw [succeeded] at reported
  obtain ⟨entries, effort, built, now, unchanged⟩ := reported
  obtain ⟨slots, resolved, walked⟩ := Assembler.output_eq_ok.mp built
  obtain ⟨distinct, separate⟩ := Resolver.slots_separate resolved
  refine ⟨slots, entries, resolved, output?_of_current? now, ?_, ?_⟩
  · intro names slot before position unreached had
    exact Assembler.entries_keep position unreached distinct separate walked had
  · intro unreached names
    have same : entries = previous := Assembler.entries_unchanged walked distinct unreached names
    exact ⟨same, unchanged (congrArg _ same.symm)⟩

end Depot.Packager

namespace Depot.Sample

open Packager (Job run start)

/-- Gives the second one another content. -/
def refiling : List Request :=
  filing ++ [⟨0, .setContent 2 "user" newText true⟩]

def left : Name := ⟨Bytes.ofString "left", by decide⟩

def right : Name := ⟨Bytes.ofString "right", by decide⟩

def bundle : Name := ⟨Bytes.ofString "bundle", by decide⟩

def bundling : Plan :=
  [.container .directory bundle [.leaf (.file ⟨0, 1⟩), .leaf (.file ⟨0, 2⟩)]]

def bundleSlots : List Slot :=
  [.container .directory bundle [.file ⟨0, 1⟩, .file ⟨0, 2⟩]
    (.ok [.file left ⟨0, 1⟩, .file right ⟨0, 2⟩])]

def bundled : Except PackagerFault Report × Packager × Disk :=
  run ((single bundling).everything ((Sessions.start 1).run filing).workspace)
    (start .standard) .blank

def refiled : Job :=
  (single bundling).everything ((Sessions.start 1).run refiling).workspace

theorem refiled_slots :
    (refiled.assembler .none "app").resolver.slots bundling = .ok bundleSlots := by
  have leftNamed : refiled.workspace.name ⟨0, 1⟩ = .ok left := by decide +kernel
  have rightNamed : refiled.workspace.name ⟨0, 2⟩ = .ok right := by decide +kernel
  have home : (refiled.assembler .none "app").resolver.workspace = refiled.workspace := rfl
  rw [Resolver.slots, Resolver.place]
  simp only [bundling, Resolver.expandList, Resolver.expand, home, leftNamed, rightNamed]
  rfl

def rebundled : Except PackagerFault Report × Packager × Disk :=
  run (refiled.changing ⟨0, 2⟩) bundled.2.1 bundled.2.2

end Depot.Sample

namespace Depot.Packager

open Assembler (Position inside?)

open Sample in
theorem run_keeps_unreached_bundle :
    ∃ previous entries before, bundled.2.1.output? "app" = some previous ∧
      rebundled.2.1.output? "app" = some entries ∧
      Hierarchy.find? previous ⟨[bundle, left]⟩ = some before ∧
      Hierarchy.find? entries ⟨[bundle, left]⟩ = some before := by
  let artifact : Artifact := ⟨"app", bundling, 1⟩
  have succeeded : rebundled.1 = .ok ⟨["app"], [], ⟨1, 0, 0⟩, 0⟩ := by
    simp only [rebundled, bundled, refiled, single, Digest.blake3_eq_quick]
    decide +kernel
  have registered : artifact ∈ refiled.registry.artifacts.values := List.mem_singleton.mpr rfl
  have unreached : refiled.workspace.reaches ⟨0, 2⟩ [.file ⟨0, 1⟩] ≠ .ok true := by decide +kernel
  obtain ⟨members, there⟩ : ∃ members, ((bundled.2.1.current? artifact).bind fun previous =>
      (Entry.named? previous bundle).bind fun before => inside? .directory (some before)) =
        some members := Option.isSome_iff_exists.mp (by decide +kernel)
  obtain ⟨previous, current, there⟩ := Option.bind_eq_some_iff.mp there
  obtain ⟨directory, found, held⟩ := Option.bind_eq_some_iff.mp there
  obtain ⟨before, had⟩ : ∃ before, ((bundled.2.1.current? artifact).bind fun previous =>
      Hierarchy.find? previous ⟨[bundle, left]⟩) = some before :=
    Option.isSome_iff_exists.mp (by decide +kernel)
  rw [current, Option.bind_some] at had
  obtain ⟨slots, entries, resolved, now, keeps, _⟩ :=
    run_keeps_unreached (Prod.ext succeeded rfl) registered current
  obtain rfl := Except.ok.inj (resolved.symm.trans refiled_slots)
  have position : Position bundleSlots previous [bundle, left] (.file left ⟨0, 1⟩) :=
    .inside List.mem_cons_self found held (.top List.mem_cons_self)
  exact ⟨previous, entries, before, output?_of_current? current, now, had,
    keeps _ _ before position unreached had⟩

end Depot.Packager
