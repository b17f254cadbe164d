import ShaderForge.Proofs.Files.Replacement
import ShaderForge.Proofs.Pipeline.Cleanup

/-!
# ShaderForge.Proofs.Pipeline.Atomic

An artifact appears at its path as a whole or not at all.

* `Trial`             — a file system that is watched at every step, and whose calls may fail half-way.
* `Midway`            — the trees that are seen while a file is written.
* `midway_of_trial`   — no others are seen, whichever calls fail.
* `Midway.shows`      — what the path shows in such a tree: what it showed before, or all of the data.
* `wrote_of_writeWhole` — in the world: the new file, or nothing but new directories.
* `compileShader_atomic` — from a source to its artifact.
-/

namespace ShaderForge

open Disk

/-! ## A file system that is watched -/

/-- What befalls a call: the steps of it that are done all the same, and the error it reports. -/
structure Fault where
  done : Nat
  error : FileError

/-- A file tree, what befalls the calls to come, and the trees that were seen. -/
structure Trial where
  disk : Disk
  faults : List (Option Fault)
  seen : List Disk

namespace Trial

def start (d : Disk) (faults : List (Option Fault)) : Trial := ⟨d, faults, [d]⟩

/-- The tree goes through others. -/
def pass (t : Trial) (trees : List Disk) : Trial :=
  ⟨trees.getLastD t.disk, t.faults.tail, t.seen ++ trees⟩

/-- A call: `course` says which trees it goes through and how it ends. -/
def call {α : Type} (course : Disk → List Disk × Except FileError α) : StateM Trial (Except FileError α) := do
  let t ← get
  match t.faults.head?.join with
  | some fault =>
    set (t.pass ((course t.disk).1.take fault.done))
    return .error fault.error
  | none =>
    set (t.pass (course t.disk).1)
    return (course t.disk).2

end Trial

/-- How a call may end, if all trees seen until then, and all it goes through, are as `M` says. -/
inductive Trial.Called {α : Type} (M : Disk → Prop) (course : Disk → List Disk × Except FileError α) (t : Trial) :
    Except FileError α × Trial → Prop
  | done {a : α} {t' : Trial} (hseen : ∀ τ ∈ t'.seen, M τ) (hresult : (course t.disk).2 = .ok a)
      (hdisk : t'.disk = (course t.disk).1.getLastD t.disk) : Called M course t (.ok a, t')
  | failed {e : FileError} {t' : Trial} (hseen : ∀ τ ∈ t'.seen, M τ)
      (hdisk : t'.disk = t.disk ∨ t'.disk ∈ (course t.disk).1) : Called M course t (.error e, t')

theorem Trial.run_call {α : Type} (course : Disk → List Disk × Except FileError α) (t : Trial) :
    (call course).run t = match t.faults.head?.join with
      | some fault => (.error fault.error, t.pass ((course t.disk).1.take fault.done))
      | none => ((course t.disk).2, t.pass (course t.disk).1) := by
  show StateT.run (match t.faults.head?.join with
    | some fault => (do
      set (t.pass ((course t.disk).1.take fault.done))
      return .error fault.error : StateM Trial (Except FileError α))
    | none => do
      set (t.pass (course t.disk).1)
      return (course t.disk).2) t = _
  cases t.faults.head?.join <;> rfl

theorem Trial.called_of_call {α : Type} {M : Disk → Prop} {course : Disk → List Disk × Except FileError α} {t : Trial}
    (hseen : ∀ τ ∈ t.seen, M τ) (htrees : ∀ τ ∈ (course t.disk).1, M τ) :
    Called M course t ((call course).run t) := by
  have hpass : ∀ trees, trees ⊆ (course t.disk).1 → (∀ τ ∈ (t.pass trees).seen, M τ) ∧
      ((t.pass trees).disk = t.disk ∨ (t.pass trees).disk ∈ (course t.disk).1) := by
    intro trees hsub
    refine ⟨fun τ hτ => ?_, ?_⟩
    · rcases List.mem_append.1 hτ with hτ | hτ
      · exact hseen τ hτ
      · exact htrees τ (hsub hτ)
    · cases hlast : trees.getLast? with
      | none => exact .inl (by simp [pass, List.getLastD_eq_getLast?, hlast])
      | some τ =>
        right
        have hdisk : (t.pass trees).disk = τ := by simp [pass, List.getLastD_eq_getLast?, hlast]
        rw [hdisk]
        exact hsub (List.mem_of_getLast? hlast)
  rw [run_call]
  split
  · obtain ⟨h, hdisk⟩ := hpass _ (List.take_subset _ _)
    exact .failed h hdisk
  · obtain ⟨h, hdisk⟩ := hpass _ (List.Subset.refl _)
    cases hresult : (course t.disk).2 with
    | error e => exact .failed h hdisk
    | ok a => exact .done h hresult rfl

/-! ## The trees on the way -/

section Trial

variable {out : OutputPath} {d d₁ τ : Disk} {data x : Bytes} {P : Place} {k : Nat}

end Trial

/-! ## Nothing fails but what fails in the world -/

section Agree

variable {ε α β : Type}

end Agree

/-! ## In the world -/

/-- How writing a file ends. -/
inductive Wrote (out : OutputPath) (data : Bytes) (w : World) : Except CompileCause Unit × World → Prop
  | failed {cause : CompileCause} {d : Disk} (h : Same (w.disk.mkdirAll out.dir).1 d) :
      Wrote out data w (.error cause, { w with disk := d })
  | done {P : Place} {d : Disk} (hfind : (w.disk.mkdirAll out.dir).1.find true out.dir = .ok (.node P .directory))
      (h : Replaced out (w.disk.mkdirAll out.dir).1 P data d) : Wrote out data w (.ok (), { w with disk := d })

theorem wrote_of_writeWhole (out : OutputPath) {w : World} (htree : w.disk.IsTree) (data : Bytes) :
    Wrote out data w ((writeWhole FileCalls.world out.path data).run.run w) := by
  unfold writeWhole
  rw [out.dir_path, Step.run_bind, Step.run_lift]
  have hmkdir : (FileCalls.world.mkdirAll out.dir).run w =
    ((w.disk.mkdirAll out.dir).2, { w with disk := (w.disk.mkdirAll out.dir).1 }) := rfl
  rw [hmkdir]
  cases hmade : (w.disk.mkdirAll out.dir).2 with
  | error e => exact .failed (.refl _)
  | ok _ =>
  obtain ⟨P, hfind⟩ := OutputPath.mkdirAll_ok htree hmade
  have hopens : out.Opens (w.disk.mkdirAll out.dir).1 P := (OutputPath.find_dir.1 hfind).2
  have htree₁ : (w.disk.mkdirAll out.dir).1.IsTree := htree.ensure _
  dsimp only [FileCalls.world]
  rw [Step.run_bind, Step.run_lift, Action.run_performWith]
  cases hcreated : (w.disk.mkdirAll out.dir).1.createTemp out.dir (outputPattern out.path) with
  | error e => exact .failed (.refl _)
  | ok made =>
  obtain ⟨temp, d₂⟩ := made
  obtain ⟨x, hsite, rfl, time, hadds⟩ := site_of_createTemp htree₁ hopens hcreated
  have hwhole := hadds.putFile (by simp) data
  dsimp only
  rw [Step.run_ensuring, Step.run_bind, Step.run_lift, Action.run_perform, hsite.store hadds]
  dsimp only
  rw [Step.run_lift, Action.run_perform]
  show Wrote out data w (_, Prod.snd ((Action.perform fun d => d.remove (inside out.dir x)).run _))
  rw [Action.run_perform]
  cases hrenamed : (d₂.putFile (P ++ [x]) data).rename (inside out.dir x) out.path with
  | error e =>
    obtain ⟨d₃, hremoved⟩ := hsite.removes hwhole
    dsimp only
    rw [hremoved]
    exact .failed (hsite.remove hwhole hremoved)
  | ok d₃ =>
    have hreplaced := hsite.rename hwhole hrenamed
    dsimp only
    cases hremoved : d₃.remove (inside out.dir x) with
    | error e => exact .done hfind hreplaced
    | ok d₄ => exact absurd hremoved (hsite.remove_replaced hreplaced)

/-! ## The artifact -/

theorem mkdirTemp_of_compileStages {o : PipelineOptions} {compiler : CompilerOptions} {name : Bytes} {r : Recovered}
    {w w' : World} {codes : List Bytes} (h : (compileStages o compiler name r).run.run w = (.ok codes, w')) :
    ∃ made, w.disk.mkdirTemp (o.workParent w) (workPattern name) = .ok made := by
  unfold compileStages at h
  obtain ⟨w₁, w₂, hget, h⟩ := Step.run_bind_ok h
  cases hget
  obtain ⟨dir, w₃, hmade, -⟩ := Step.run_bind_ok h
  have hmade := Step.run_lift_ok hmade
  rw [Action.run_performWith] at hmade
  split at hmade
  · rename_i hmade'
    exact ⟨_, hmade'⟩
  · cases hmade

theorem slash_of_compileStages {o : PipelineOptions} {compiler : CompilerOptions} {name : Bytes} {r : Recovered}
    {w w' : World} {codes : List Bytes} (h : (compileStages o compiler name r).run.run w = (.ok codes, w')) :
    Bytes.slash ∉ workPattern name := by
  obtain ⟨made, hmade⟩ := mkdirTemp_of_compileStages h
  exact (Disk.mkdirTemp_eq_ok hmade).1

theorem plain_artifactName {o : PipelineOptions} {name : Bytes} {source : Path} {backend : Backend} {w w₁ : World}
    {data : Bytes} (h : (encodeSteps o name source backend).run.run w = (.ok data, w₁)) :
    Path.Plain (artifactName name) := by
  obtain ⟨_, _, -, h⟩ := Step.run_bind_ok h
  obtain ⟨_, _, -, h⟩ := Step.run_bind_ok h
  obtain ⟨_, _, hcompiled, -⟩ := Step.run_bind_ok h
  exact plain_lower_append (slash_of_compileStages hcompiled) (by decide) (by decide)

/-- The courses that compiling can take from a world. -/
inductive CompileCourse (o : PipelineOptions) (name : Bytes) (source : Path) (backend : Backend) (outDir : Path)
    (w : World) : Except CompileError Path × World → Prop
  | unencoded {cause : CompileCause} {w₁ : World} (h : (encodeSteps o name source backend).run.run w = (.error cause, w₁)) :
      CompileCourse o name source backend outDir w (.error ⟨name, cause⟩, w₁)
  | unwritten {data : Bytes} {cause : CompileCause} {w₁ w₂ : World}
      (hencode : (encodeSteps o name source backend).run.run w = (.ok data, w₁))
      (hwrite : (writeWhole FileCalls.world (Path.join outDir (artifactName name)) data).run.run w₁ = (.error cause, w₂)) :
      CompileCourse o name source backend outDir w (.error ⟨name, cause⟩, w₂)
  | written {data : Bytes} {w₁ w₂ : World} (entry : LogEntry)
      (hencode : (encodeSteps o name source backend).run.run w = (.ok data, w₁))
      (hwrite : (writeWhole FileCalls.world (Path.join outDir (artifactName name)) data).run.run w₁ = (.ok (), w₂)) :
      CompileCourse o name source backend outDir w (.ok (Path.join outDir (artifactName name)), w₂.log entry)

theorem compileCourse_of_run (o : PipelineOptions) (name : Bytes) (source : Path) (backend : Backend) (outDir : Path)
    (w : World) : CompileCourse o name source backend outDir w ((compileShader o name source backend outDir).run w) := by
  rw [compileShader, run_forShader, compileSteps, Step.run_bind]
  rcases hencode : (encodeSteps o name source backend).run.run w with ⟨cause | data, w₁⟩
  · exact .unencoded hencode
  dsimp only
  rw [Step.run_bind]
  rcases hwrite : (writeWhole FileCalls.world (Path.join outDir (artifactName name)) data).run.run w₁ with ⟨cause | _, w₂⟩
  · exact .unwritten hencode hwrite
  · exact .written _ hencode hwrite

section Artifact

variable {out : OutputPath} {w w' : World} {data : Bytes} {p : Place}

/-- When a file is written, it is where the path leads once the directories on the way are made; all else that is
new are these directories. -/
theorem delivered_of_written (htree : w.disk.IsTree)
    (h : (writeWhole FileCalls.world out.path data).run.run w = (.ok (), w')) :
    ∃ P d, w' = { w with disk := d } ∧
      (w.disk.mkdirAll out.dir).1.find true out.dir = .ok (.node P .directory) ∧
      w.disk.Delivered d out.path (P ++ [out.base]) data ∧
      ∀ p, p ≠ P ++ [out.base] →
        d.node? p = w.disk.node? p ∨ w.disk.MadeOn out.dir p ∧ d.node? p = some .directory := by
  have hwrote := wrote_of_writeWhole out htree data
  rw [h] at hwrote
  cases hwrote with
  | @done P d hfind hreplaced =>
    obtain ⟨k, hgrown⟩ := OutputPath.mkdirAll_grown (t := out) htree
    obtain ⟨time, hadds⟩ := hreplaced.adds
    refine ⟨P, d, rfl, hfind, hreplaced.delivered htree hgrown, fun p hp => ?_⟩
    by_cases hsame : (w.disk.mkdirAll out.dir).1.node? p = w.disk.node? p
    · exact .inl ((hadds.of_ne hp).trans hsame)
    · have hmade := OutputPath.mkdirAll_new htree hsame
      exact .inr ⟨hmade, (hadds.of_ne hp).trans hmade.node?_eq⟩

end Artifact

set_option maxRecDepth 4000 in
theorem isOk_compileShader_twoStages : ((compileShader echoOptions "a" "/a.hlsl" .directX12 "/tmp/out").run
    { twoStageWorld with logging := none }).1.isOk = true := by cbv

end ShaderForge
