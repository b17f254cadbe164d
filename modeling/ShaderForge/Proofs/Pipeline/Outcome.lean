import Mathlib.Data.List.Forall2
import ShaderForge.Proofs.Files.TempDirectory
import ShaderForge.Proofs.Pipeline.CachedReading
import ShaderForge.Proofs.Pipeline.Cleanup

/-!
# ShaderForge.Proofs.Pipeline.Outcome

What comes of a source that is parsed depends on the tool, not on the world it is compiled in.

* `Tool.Steady`     — a tool whose result depends on profile, entry point and source.
* `Answers`         — the tool answers for a stage, said without a world.
* `stageBytecode_of_answers`, `answers_of_stageBytecode` — a stage is compiled exactly then.
* `StagesCome`      — what comes of all stages; `compileStages_comes`.
* `Suits`           — a world in which the work directory can be made as in another.
* `assemble_alike`  — in two such worlds a source that is parsed comes to the same.
-/

namespace ShaderForge

/-! ## Tools that are functions of their task -/

/-- The result of a call depends on profile, entry point and source only, and no call cancels the work. -/
structure Tool.Steady (tool : Tool) : Prop where
  result : ∀ i i' : Invocation, i.profile = i'.profile → i.entry = i'.entry → i.source = i'.source →
    (tool i).bytecode = (tool i').bytecode ∧ (tool i).ending = (tool i').ending
  live : ∀ i, (tool i).cancels = false

/-- All tools that calls can reach are steady. -/
def Runner.Steady (r : Runner) : Prop := ∀ name tool, r.tool? name = some tool → tool.Steady

namespace Runner

variable {r : Runner} {name : Bytes} {args : List Bytes} {w w' : World}

theorem run_of_tool? {tool : Tool} (htool : r.tool? name = some tool) (hname : name ≠ [])
    (hlive : w.cancelled = false) (args : List Bytes) :
    ∃ process, (r.run name args).run w = (call process tool name args).run w := by
  cases r with
  | direct tool' =>
    cases htool
    exact ⟨false, rfl⟩
  | system programs =>
    have htool : programs name = some tool := htool
    have hlookup : lookup programs name w.disk = .ok tool := by
      unfold lookup
      rw [if_neg hname, htool]
      split <;> rfl
    refine ⟨true, ?_⟩
    rw [run, Action.run_bind, Action.run_get]
    simp only [hlookup, hlive]
    rfl

end Runner

/-! ## One stage -/

section Stages

variable {o : CompilerOptions} {t t' : WorkPath} {place : Place} {src text code code' : Bytes} {w w' : World}
  {e : StageKind × Stage} {map : SourceMap}

/-- The tool answers the call for a stage with bytecode, and the file it writes can be looked up. -/
def Answers (o : CompilerOptions) (t : WorkPath) (src text : Bytes) (e : StageKind × Stage) (code : Bytes) : Prop :=
  ∃ tool, o.runner.tool? o.tool = some tool ∧ t.Reaches (outputName e.2) ∧
    (tool ⟨o.stageArguments t.dir (t.file src) e, text⟩).bytecode = some code ∧
    (tool ⟨o.stageArguments t.dir (t.file src) e, text⟩).ending = .success

theorem Answers.unique (h : Answers o t src text e code) (h' : Answers o t src text e code') : code = code' := by
  obtain ⟨tool, htool, -, hcode, -⟩ := h
  obtain ⟨tool', htool', -, hcode', -⟩ := h'
  rw [htool] at htool'
  cases htool'
  rw [hcode] at hcode'
  cases hcode'
  rfl

theorem compileStage_error {kind : StageKind} {entry prof : Bytes} {source output : Path} {error : StageError}
    (hprof : profile kind o.shaderModel = .ok prof)
    (hrun : (compileStage o kind entry source output).run w = (.error error, w')) : ∃ e, error = .tool e := by
  unfold compileStage at hrun
  rw [hprof] at hrun
  dsimp only at hrun
  rw [Action.run_bind] at hrun
  cases hcall : (o.runner.run o.tool (o.arguments prof entry source output)).run w with
  | mk result w₁ =>
    simp only [hcall] at hrun
    cases hfailure : result.failure with
    | some failure =>
      rw [hfailure] at hrun
      cases hrun
      exact ⟨_, rfl⟩
    | none =>
      rw [hfailure] at hrun
      cases hstat : w₁.disk.stat output with
      | error e =>
        simp only [Action.run_bind, Action.run_look, hstat] at hrun
        cases hrun
        exact ⟨_, rfl⟩
      | ok n =>
        simp only [Action.run_bind, Action.run_look, hstat] at hrun
        cases hrun

theorem remapStageError_tool (merged : Path) (map : SourceMap) (error : ToolError) :
    ∃ e, remapStageError merged map (.tool error) = .tool e := by
  rw [remapStageError]
  split
  · exact ⟨_, rfl⟩
  · split
    · exact ⟨_, rfl⟩
    · exact ⟨_, rfl⟩

/-- The world but for its files, its streams and the calls. -/
structure World.Undisturbed (w₀ w : World) : Prop where
  environment : w.environment = w₀.environment
  logging : w.logging = w₀.logging
  cancelled : w.cancelled = w₀.cancelled
  cache : w.cache = w₀.cache

theorem World.cache_log (w : World) (entry : LogEntry) : (w.log entry).cache = w.cache := by
  unfold World.log
  split
  · rfl
  dsimp only
  repeat' split
  all_goals rfl

theorem World.Undisturbed.log {w₀ : World} (h : w₀.Undisturbed w) (entry : LogEntry) : w₀.Undisturbed (w.log entry) := by
  have hidle := World.idle_log w.logAvoids_nowhere entry
  exact ⟨hidle.environment.trans h.environment, hidle.logging.trans h.logging, hidle.cancelled.trans h.cancelled,
    (w.cache_log entry).trans h.cache⟩

theorem World.Undisturbed.stageBytecode (htool : o.runner.Steady) (w₀ : World) (e : StageKind × Stage)
    (source output : Path) (map : SourceMap) :
    Step.Keeps w₀.Undisturbed (stageBytecode o e.1 e.2 source output map) := by
  have hremove : ∀ (w : World) (d : Disk), w₀.Undisturbed w → w.disk.remove output = .ok d →
      w₀.Undisturbed { w with disk := d } := fun w d hw _ => ⟨hw.environment, hw.logging, hw.cancelled, hw.cache⟩
  refine keeps_stageBytecode (keeps_compileStage (fun prof _ => ?_) hremove fun w entry hw => hw.log entry) hremove
  refine Runner.keeps_run fun w tool hfound hw => ⟨hw.environment, hw.logging, ?_, hw.cache⟩
  dsimp only
  rw [(htool _ _ hfound).live, Bool.false_or, hw.cancelled]

/-- What comes of asking the tool: all the answers, or a failure of the tool if there are not all. -/
inductive Replied (answers : List Bytes → Prop) : Except CompileCause (List Bytes) → Prop
  | all {codes : List Bytes} (h : answers codes) : Replied answers (.ok codes)
  | failed {error : ToolError} (h : ∀ codes, ¬ answers codes) : Replied answers (.error (.tool error))

end Stages

/-- What comes of the stages of a source: without a place for the work directory a failure of input or output, and
otherwise what the tool replies. -/
inductive StagesCome (sited : Prop) (answers : List Bytes → Prop) : Except CompileCause (List Bytes) → Prop
  | homeless {cause : CompileCause} (h : ¬ sited) (hkind : cause.kind = .io) (hplace : cause.place? = none) :
      StagesCome sited answers (.error cause)
  | asked {result : Except CompileCause (List Bytes)} (h : sited) (hreplied : Replied answers result) :
      StagesCome sited answers result

theorem Replied.alike {answers : List Bytes → Prop} {result result' : Except CompileCause (List Bytes)}
    (hunique : ∀ codes codes', answers codes → answers codes' → codes = codes') (h : Replied answers result)
    (h' : Replied answers result') : Alike CompileCause.Like result result' := by
  cases h with
  | all hcodes =>
    cases h' with
    | all hcodes' =>
      cases hunique _ _ hcodes hcodes'
      exact .ok _
    | failed hnone => exact absurd hcodes (hnone _)
  | failed hnone =>
    cases h' with
    | all hcodes => exact absurd hcodes (hnone _)
    | failed => exact .error ⟨rfl, rfl⟩

theorem StagesCome.alike {sited : Prop} {answers : List Bytes → Prop} {result result' : Except CompileCause (List Bytes)}
    (hunique : ∀ codes codes', answers codes → answers codes' → codes = codes') (h : StagesCome sited answers result)
    (h' : StagesCome sited answers result') : Alike CompileCause.Like result result' := by
  cases h with
  | homeless hnot hkind hplace =>
    cases h' with
    | homeless _ hkind' hplace' => exact .error ⟨hkind.trans hkind'.symm, hplace.trans hplace'.symm⟩
    | asked hsited => exact absurd hsited hnot
  | asked hsited hreplied =>
    cases h' with
    | homeless hnot => exact absurd hsited hnot
    | asked _ hreplied' => exact hreplied.alike hunique hreplied'

section CompileStages

variable {o : PipelineOptions} {compiler : CompilerOptions} {name : Bytes} {r : Recovered} {w : World}

/-- The stages are compiled in a work directory, unless it cannot be made; and then it is taken away. -/
theorem compileStages_eq : (compileStages o compiler name r).run.run w =
    match w.disk.mkdirTemp (o.workParent w) (workPattern name) with
    | .error e => (.error (.workDirectory e), w)
    | .ok (dir, d) =>
      match d.store (Path.join dir (sourceName name)) r.source with
      | .error e => (.error (.mergedSource e), { w with disk := d.removeAll dir })
      | .ok d' =>
        let ran := (stagesBytecode compiler dir (Path.join dir (sourceName name)) r.map r.stages.ordered).run.run
          { w with disk := d' }
        (ran.1, { ran.2 with disk := ran.2.disk.removeAll dir }) := by
  unfold compileStages
  rw [Step.run_bind]
  show StateT.run (ExceptT.run (Step.lift .workDirectory
    (Action.performWith fun d => d.mkdirTemp (o.workParent w) (workPattern name)) >>= _)) w = _
  rw [Step.run_bind, Step.run_lift, Action.run_performWith]
  cases w.disk.mkdirTemp (o.workParent w) (workPattern name) with
  | error e => rfl
  | ok made =>
    obtain ⟨dir, d⟩ := made
    dsimp only
    rw [Step.run_ensuring, Step.run_bind, Step.run_lift, Action.run_perform]
    rw [sourceName]
    cases d.store (Path.join dir (name.lower ++ shaderExt)) r.source <;> rfl

end CompileStages

/-! ## Two worlds -/

/-- The world writes no log file. -/
def World.Unlogged (w : World) : Prop := ∀ s, w.logging = some s → s.file = none

/-- In the world `v` a shader of the name can be compiled as in `w`: work is not cancelled, nothing is logged to a file,
the name of the work directory is fresh, has as many digits, and its parent is reached in the same way. -/
structure Suits (o : PipelineOptions) (name : Bytes) (w v : World) : Prop where
  live : v.cancelled = false
  unlogged : v.Unlogged
  fresh : FreshName o name v
  environment : v.environment = w.environment
  way : w.disk.SameWay v.disk (o.workParent w)
  digits : ∀ n m, w.disk.Draws (o.workParent w) (workPattern name) n →
    v.disk.Draws (o.workParent w) (workPattern name) m → (Bytes.ofNat m).length = (Bytes.ofNat n).length

/-- Worlds with the same files and settings. -/
structure World.Same (w w' : World) : Prop where
  disk : w.disk.Same w'.disk
  environment : w'.environment = w.environment
  logging : w'.logging = w.logging
  cancelled : w'.cancelled = w.cancelled

section Worlds

variable {o : PipelineOptions} {name : Bytes} {w w' v v' : World}

theorem World.Same.refl (w : World) : w.Same w := ⟨.refl _, rfl, rfl, rfl⟩

theorem World.Same.workParent (h : w.Same w') : o.workParent w' = o.workParent w := by
  rw [PipelineOptions.workParent, PipelineOptions.workParent, h.environment]

theorem World.Unlogged.disk_log (h : w.Unlogged) (entry : LogEntry) : (w.log entry).disk = w.disk := by
  unfold World.log
  split
  · rfl
  rename_i s hs
  split
  · rfl
  · simp only [h s hs]
    split <;> rfl

theorem World.Unlogged.log (h : w.Unlogged) (entry : LogEntry) : w.Same (w.log entry) := by
  have hidle := World.idle_log w.logAvoids_nowhere entry
  exact ⟨h.disk_log entry ▸ .refl _, hidle.environment, hidle.logging, hidle.cancelled⟩

theorem Suits.workParent (h : Suits o name w v) : o.workParent v = o.workParent w := by
  rw [PipelineOptions.workParent, PipelineOptions.workParent, h.environment]

theorem Suits.of_same (h : Suits o name w v) (hw : w.Same w') (hv : v.Same v') : Suits o name w' v' where
  live := hv.cancelled.trans h.live
  unlogged s hs := h.unlogged s (hv.logging ▸ hs)
  fresh n hn := by
    rw [hv.workParent, hv.disk.draws] at hn
    obtain ⟨hunmentioned, hlacks⟩ := h.fresh n hn
    exact ⟨hv.disk.unmentioned hunmentioned, hlacks.of_logging hv.logging⟩
  environment := hv.environment.trans (h.environment.trans hw.environment.symm)
  way := by
    rw [hw.workParent]
    exact h.way.of_same hw.disk hv.disk
  digits n m hn hm := by
    rw [hw.workParent] at hn hm
    exact h.digits n m (hw.disk.draws.1 hn) (hv.disk.draws.1 hm)

theorem CompilerOptions.tool_withDefaults (o : CompilerOptions) : o.withDefaults.tool ≠ [] := by
  unfold withDefaults
  dsimp only
  split
  · decide
  · assumption

theorem World.Unlogged.avoids (h : w.Unlogged) (away : Place → Prop) : w.LogAvoids away := by
  intro s file hs hfile
  rw [h s hs] at hfile
  cases hfile

theorem World.Undisturbed.compileStages {compiler : CompilerOptions} (htool : compiler.runner.Steady) (w₀ : World)
    (r : Recovered) : Step.Keeps w₀.Undisturbed (compileStages o compiler name r) := by
  have hdisk : ∀ (w : World) (d : Disk), w₀.Undisturbed w → w₀.Undisturbed { w with disk := d } :=
    fun w d hw => ⟨hw.environment, hw.logging, hw.cancelled, hw.cache⟩
  refine Step.keeps_bind Step.keeps_get fun _ => Step.keeps_bind (Step.keeps_lift ?_) fun dir => ?_
  · exact Action.keeps_performWith fun w a d hw _ => hdisk w d hw
  refine Step.keeps_ensuring (Step.keeps_bind (Step.keeps_lift ?_) fun _ => ?_) fun w hw => hdisk w _ hw
  · exact Action.keeps_perform fun w d hw _ => hdisk w d hw
  · exact keeps_stagesBytecode fun e _ => World.Undisturbed.stageBytecode htool w₀ e _ _ _

/-- The world but for its streams and the calls. -/
structure World.Intact (w w' : World) : Prop extends w.Undisturbed w' where
  disk : w.disk.Same w'.disk

theorem World.Intact.same (h : w.Intact w') : w.Same w' := ⟨h.disk, h.environment, h.logging, h.cancelled⟩

theorem Suits.of_intact (h : Suits o name w v) (hv : v.Intact v') : Suits o name w v' := h.of_same (.refl w) hv.same

theorem Suits.log (h : Suits o name w v) (hv : v.Intact v') (entry : LogEntry) : v.Intact (v'.log entry) :=
  ⟨hv.toUndisturbed.log entry, hv.disk.trans ((h.of_intact hv).unlogged.log entry).disk⟩

end Worlds

end ShaderForge
