import Depot.Proofs.Packager.Representation

set_option autoImplicit false

namespace Depot

namespace Packager

open Entry (Digested AlikeEach listing digestedEach renderedEach listDigest listDigest_eq_iff)

variable {job : Job} {packager : Packager} {artifact : Artifact} {compression : Archive.Compression}
  {report : Report}

theorem Closed.digested {hash : Hash} (closed : Closed hash packager) {entries : List Entry}
    (current : packager.current? artifact = some entries) : ∀ entry ∈ entries,
      Digested hash entry :=
  fun entry present => (closed.current? entries current entry present).digested

/-- An artifact with an output from before is listed by what the digests of both outputs say. -/
theorem Makes.listed {olds news : List Entry}
    (makes : Makes job compression artifact (some olds) (some news) report) :
    (artifact.name ∈ report.unchanged ↔ listDigest job.hash news = listDigest job.hash olds) ∧
      (artifact.name ∈ report.updated ↔ listDigest job.hash news ≠ listDigest job.hash olds) := by
  cases makes with
  | output written _ _ =>
    by_cases same : listDigest job.hash olds = listDigest job.hash news
    · simp [told, same]
    · simp [told, same, Ne.symm same]

/-- Without an output from before, an artifact is not listed as unchanged. -/
theorem Makes.not_unchanged {after : Option (List Entry)}
    (makes : Makes job compression artifact none after report) :
    artifact.name ∉ report.unchanged := by
  cases makes with
  | nothing _ _ => exact List.not_mem_nil
  | output written _ _ => simp [told]

end Packager

namespace Sample

/-- Two files are packaged, and then one is written again with the content that it has. -/
def retouching : List Act :=
  filing.map .command ++
    [.run (single pair).registry .everything .blank, .command ⟨0, .setContent 1 "user" text true⟩]

def retouched : Project :=
  (Project.start 1 .standard).run (single []) retouching

def freshened : Except PackagerFault Report × Packager × Disk :=
  Packager.run (retouched.job (single []) (single pair).registry (.changed ⟨0, 1⟩))
    retouched.packager
    .blank

end Sample

namespace Packager

open Entry (Digested AlikeEach listing digestedEach renderedEach listDigest listDigest_eq_iff)

/-- Two lists of entries have the same digest exactly if they are the same without stamps and
without the entries that archives were made from, that is, if names, kinds, order, contents and the
bytes of archives agree at every depth; unless byte strings collide. So, after anything that
happened in a project, a run that succeeds lists an artifact with an output from before as unchanged
exactly if its output is rendered as before, and as updated otherwise. What was built from another
plan than the one that the artifact has now does not count as an output from before. -/
theorem run_lists_rendered (tools : Job)
    (lengths : ∀ content, (tools.hash content).bytes.length = 32) :
    (∀ left right : List Entry, (∀ entry ∈ left, Digested tools.hash entry) →
      (∀ entry ∈ right, Digested tools.hash entry) →
      tools.hash.Separates
        (listing left :: digestedEach left ++ listing right :: digestedEach right) →
      (listDigest tools.hash left = listDigest tools.hash right ↔
        renderedEach left = renderedEach right) ∧
      (renderedEach left = renderedEach right ↔ AlikeEach left right)) ∧
    ∀ (volumes : Nat) (config : Config) (history : List Act) (registry : Registry) (scope : Scope)
        (disk disk' : Disk) (report : Report) (after : Packager),
      let project := (Project.start volumes config).run tools history
      let job := project.job tools registry scope
      run job project.packager disk = (.ok report, after, disk') →
      ∀ artifact ∈ registry.artifacts.values,
        (∀ olds, project.packager.current? artifact = some olds → ∃ news,
          after.current? artifact = some news ∧
          (tools.hash.Separates
              (listing news :: digestedEach news ++ listing olds :: digestedEach olds) →
            (artifact.name ∈ report.unchanged ↔ renderedEach news = renderedEach olds) ∧
            (artifact.name ∈ report.updated ↔ renderedEach news ≠ renderedEach olds))) ∧
        (project.packager.current? artifact = none → artifact.name ∉ report.unchanged) := by
  refine ⟨fun left right leftDigested rightDigested separates =>
    listDigest_eq_iff lengths leftDigested rightDigested separates, ?_⟩
  intro volumes config history registry scope disk disk' report after project job succeeded artifact
    registered
  have closed : Closed job.hash project.packager :=
    @Project.run_closed tools _ (Project.start_closed _ volumes config) history
  have closedAfter := closed.run disk
  obtain ⟨own, alone, updated, unchanged⟩ :=
    @run_own job project.packager disk artifact report (congrArg Prod.fst succeeded) registered
  have makes := alone.makes
  rw [succeeded] at makes closedAfter
  constructor
  · intro olds was
    rw [was] at makes
    cases now : after.current? artifact with
    | none =>
      rw [now] at makes
      exact nomatch makes.of_none.1
    | some news =>
      rw [now] at makes
      refine ⟨news, rfl, fun separates => ?_⟩
      obtain ⟨same, _⟩ :=
        listDigest_eq_iff lengths (closedAfter.digested now) (closed.digested was) separates
      obtain ⟨kept, changed⟩ := makes.listed
      exact ⟨(unchanged.trans kept).trans same, (updated.trans changed).trans (not_congr same)⟩
  · intro absent
    rw [absent] at makes
    exact fun listed => makes.not_unchanged (unchanged.mp listed)

open Sample in
/-- The file has another stamp, and is rendered as before. -/
theorem run_lists_rendered_retouched :
    ∃ artifact ∈ (single pair).registry.artifacts.values, ∃ olds news,
      retouched.packager.current? artifact = some olds ∧
      freshened.2.1.current? artifact = some news ∧ renderedEach news = renderedEach olds := by
  have succeeded : freshened.1 = .ok ⟨[], ["app"], ⟨1, 0, 0⟩, 0⟩ := by
    simp only [freshened, retouched, single, Digest.blake3_eq_quick]
    decide +kernel
  obtain ⟨artifact, found⟩ : ∃ artifact, (single pair).registry.find? "app" = some artifact :=
    ⟨_, rfl⟩
  obtain ⟨registered, named⟩ := Registry.find?_eq_some.mp found
  have stored : ∀ artifact ∈ (single pair).registry.artifacts.values,
      (retouched.packager.current? artifact).isSome := by decide +kernel
  obtain ⟨olds, was⟩ := Option.isSome_iff_exists.mp (stored artifact registered)
  obtain ⟨_, runs⟩ := run_lists_rendered (single []) Blake3.length_hash
  obtain ⟨lists, _⟩ := runs 1 .standard retouching (single pair).registry
    (.changed ⟨0, 1⟩) .blank _ _ _
    (Prod.ext succeeded rfl) artifact registered
  obtain ⟨news, now, listed⟩ := lists olds was
  have apart : ∀ artifact ∈ (single pair).registry.artifacts.values,
      ∀ olds ∈ retouched.packager.current? artifact, ∀ news ∈ freshened.2.1.current? artifact,
        Digest.blake3.Separates
          (listing news :: digestedEach news ++ listing olds :: digestedEach olds) := by
    simp only [freshened, retouched, single, Digest.blake3_eq_quick]
    decide +kernel
  obtain ⟨kept, _⟩ := listed (apart artifact registered olds was news now)
  refine ⟨artifact, registered, olds, news, was, now, kept.mp ?_⟩
  rw [named]
  exact List.mem_cons_self

end Packager

end Depot
