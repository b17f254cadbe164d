import ShaderForge.Proofs.Files.Beside
import ShaderForge.Proofs.Files.Tree
import ShaderForge.Proofs.Pipeline.EndToEnd

/-!
# ShaderForge.Proofs.Pipeline.Cleanup

What encoding leaves behind: nothing but log entries, however it ends.

* `Step.Keeps`           — a step that keeps an invariant, whatever its result.
* `Engaged`              — a world in the midst of compiling stages: a work directory beside the tree.
* `keeps_stagesBytecode` — calls of the tool stay in the work directory, also when they fail.
* `compileStages_still`, `encodeShader_still` — when it is over, the work directory is gone.
* `encodeSteps_isTree`   — the disk stays a tree.
-/

namespace ShaderForge

variable {o : CompilerOptions} {kind : StageKind} {source : Path} {w : World} {away : Place → Prop}

/-! ## Steps that keep an invariant -/

namespace Step

variable {ε α β : Type} {I : World → Prop}

/-- From every world of the invariant the step comes to a world of the invariant. -/
def Keeps (I : World → Prop) (x : Step α) : Prop := ∀ w, I w → I (x.run.run w).2

theorem keeps_pure (a : α) : Keeps I (pure a) := fun _ hw => hw

theorem keeps_throw (cause : CompileCause) : Keeps I (throw cause : Step α) := fun _ hw => hw

theorem keeps_get : Keeps I (liftM (get : Action World) : Step World) := fun _ hw => hw

theorem keeps_bind {x : Step α} {f : α → Step β} (hx : Keeps I x) (hf : ∀ a, Keeps I (f a)) :
    Keeps I (x >>= f) := by
  intro w hw
  have hx' := hx w hw
  rw [run_bind]
  split
  · rename_i a w₁ heq
    rw [heq] at hx'
    exact hf a w₁ hx'
  · rename_i e w₁ heq
    rwa [heq] at hx'

theorem keeps_lift {cause : ε → CompileCause} {a : Action (Except ε α)} (h : ∀ w, I w → I (a.run w).2) :
    Keeps I (lift cause a) := by
  intro w hw
  have ha := h w hw
  rw [run_lift]
  split <;>
  · rename_i heq
    rwa [heq] at ha

theorem keeps_require (cause : ε → CompileCause) (r : Except ε α) : Keeps I (require cause r) :=
  keeps_lift fun _ hw => hw

theorem keeps_log (h : ∀ w e, I w → I (w.log e)) (level : Level) (logger message : Bytes) (fields : List LogField) :
    Keeps I (liftM (Action.log level logger message fields) : Step Unit) :=
  fun w hw => h w _ hw

theorem keeps_ensuring {x : Step α} {after : Action Unit} (hx : Keeps I x) (hafter : ∀ w, I w → I (after.run w).2) :
    Keeps I (ensuring x after) := by
  intro w hw
  rw [run_ensuring]
  exact hafter _ (hx w hw)

end Step

namespace Action

variable {I : World → Prop}

theorem keeps_perform {change : Disk → Except FileError Disk}
    (h : ∀ w d, I w → change w.disk = .ok d → I { w with disk := d }) (w : World) (hw : I w) :
    I ((perform change).run w).2 := by
  rw [run_perform]
  split
  · rename_i hchange
    exact h w _ hw hchange
  · exact hw

theorem keeps_performWith {α : Type} {change : Disk → Except FileError (α × Disk)}
    (h : ∀ w a d, I w → change w.disk = .ok (a, d) → I { w with disk := d }) (w : World) (hw : I w) :
    I ((performWith change).run w).2 := by
  rw [run_performWith]
  split
  · rename_i hchange
    exact h w _ _ hw hchange
  · exact hw

end Action

/-! ## The tool -/

theorem Runner.keeps_run {I : World → Prop} {r : Runner} {name : Bytes} {args : List Bytes}
    (h : ∀ w tool, r.tool? name = some tool → I w →
      I { w with
        disk := written w.disk args (tool ⟨args, sourceText w.disk args⟩)
        calls := w.calls ++ [name :: args]
        cancelled := (tool ⟨args, sourceText w.disk args⟩).cancels || w.cancelled })
    (w : World) (hw : I w) : I ((r.run name args).run w).2 := by
  have hcall : ∀ process tool, r.tool? name = some tool → I ((call process tool name args).run w).2 := by
    intro process tool htool
    obtain ⟨interruption, hrun⟩ := run_carryOut process (tool ⟨args, sourceText w.disk args⟩) name args w
    rw [run_call, hrun]
    exact h w tool htool hw
  cases r with
  | direct tool => exact hcall false tool rfl
  | system programs =>
    rw [Runner.run, Action.run_bind, Action.run_get]
    dsimp only
    split
    · exact hw
    · rename_i tool hlookup
      split
      · exact hw
      · exact hcall true tool (tool?_of_lookup hlookup)

/-- A stage is compiled with a call; behind it come no more than a removal of the output file and an entry in the
log. -/
theorem after_compileStage {I : World → Prop} {entry prof : Bytes} {output : Path}
    (hprof : profile kind o.shaderModel = .ok prof)
    (hcall : I ((o.runner.run o.tool (o.arguments prof entry source output)).run w).2)
    (hremove : ∀ w d, I w → w.disk.remove output = .ok d → I { w with disk := d }) (hlog : ∀ w e, I w → I (w.log e)) :
    I ((compileStage o kind entry source output).run w).2 := by
  unfold compileStage
  rw [hprof]
  dsimp only
  rw [Action.run_bind]
  generalize (o.runner.run o.tool (o.arguments prof entry source output)).run w = ran at hcall ⊢
  obtain ⟨result, w₁⟩ := ran
  dsimp only at hcall ⊢
  cases result.failure with
  | some failure =>
    dsimp only
    rw [Action.run_bind]
    exact hlog _ _ (Action.keeps_perform hremove w₁ hcall)
  | none =>
    dsimp only
    rw [Action.run_bind, Action.run_look]
    cases w₁.disk.stat output with
    | error e => exact hcall
    | ok n => exact hlog _ _ hcall

theorem keeps_compileStage {I : World → Prop} {entry : Bytes} {output : Path}
    (hcall : ∀ prof, profile kind o.shaderModel = .ok prof →
      ∀ w, I w → I ((o.runner.run o.tool (o.arguments prof entry source output)).run w).2)
    (hremove : ∀ w d, I w → w.disk.remove output = .ok d → I { w with disk := d }) (hlog : ∀ w e, I w → I (w.log e))
    (w : World) (hw : I w) : I ((compileStage o kind entry source output).run w).2 := by
  cases hprof : profile kind o.shaderModel with
  | error fault =>
    unfold compileStage
    rw [hprof]
    exact hw
  | ok prof => exact after_compileStage hprof (hcall prof hprof w hw) hremove hlog

theorem after_stageBytecode {I : World → Prop} {stage : Stage} {output : Path} {map : SourceMap}
    (hcompile : I ((compileStage o kind stage.entryPoint source output).run w).2)
    (hremove : ∀ w d, I w → w.disk.remove output = .ok d → I { w with disk := d }) :
    I ((stageBytecode o kind stage source output map).run.run w).2 := by
  have hperform : ∀ w, I w → I ((Action.perform fun d => d.remove output).run w).2 := Action.keeps_perform hremove
  unfold stageBytecode
  rw [Step.run_bind, Step.run_lift]
  rcases hrun : (compileStage o kind stage.entryPoint source output).run w with ⟨error | path, w₁⟩
  · rw [hrun] at hcompile
    exact hcompile
  · rw [hrun] at hcompile
    -- a stage that is compiled is compiled to the output path
    obtain ⟨rfl, -⟩ := compileStage_eq_ok hrun
    exact Step.keeps_ensuring (Step.keeps_lift fun _ hw => hw) hperform w₁ hcompile

theorem keeps_stageBytecode {I : World → Prop} {stage : Stage} {output : Path} {map : SourceMap}
    (hcompile : ∀ w, I w → I ((compileStage o kind stage.entryPoint source output).run w).2)
    (hremove : ∀ w d, I w → w.disk.remove output = .ok d → I { w with disk := d }) :
    Step.Keeps I (stageBytecode o kind stage source output map) :=
  fun w hw => after_stageBytecode (hcompile w hw) hremove

theorem keeps_stagesBytecode {I : World → Prop} {dir : Path} {map : SourceMap} {l : List (StageKind × Stage)}
    (hstage : ∀ e ∈ l, Step.Keeps I (stageBytecode o e.1 e.2 source (Path.join dir (outputName e.2)) map)) :
    Step.Keeps I (stagesBytecode o dir source map l) := by
  induction l with
  | nil => exact Step.keeps_pure _
  | cons e l ih =>
    rw [stagesBytecode]
    refine Step.keeps_bind Step.keeps_get fun w => ?_
    split
    · exact Step.keeps_throw _
    · refine Step.keeps_bind (hstage e List.mem_cons_self) fun code => ?_
      exact Step.keeps_bind (ih fun e he => hstage e (List.mem_cons_of_mem _ he)) fun _ => Step.keeps_pure _

/-! ## In the work directory -/

/-- A world in the midst of compiling stages: the work directory stands beside the tree of `w₀`. -/
structure Engaged (away : Place → Prop) (t : WorkPath) (place : Place) (w₀ w : World) : Prop where
  beside : Disk.Beside away t place w₀.disk w.disk
  works : ∃ files, w.disk.Works t place files
  logging : w.logging = w₀.logging

section Engagement

variable {away : Place → Prop} {t : WorkPath} {place : Place} {w₀ w : World}

theorem Disk.Beside.log (h : Disk.Beside away t place w₀.disk w.disk) (hlogging : w.logging = w₀.logging)
    (hlog : w₀.LogAvoids away) (hlacks : w₀.LogLacks t.base) (e : LogEntry) :
    Disk.Quiet (fun p => away p ∨ t.base ∈ p) w.disk (w.log e).disk := by
  refine (World.idle_log (fun s file hs hfile q hwithin => ?_) e).disk
  rw [hlogging] at hs
  exact h.avoids (hlog s file hs hfile q hwithin) (hwithin.not_mem t.plain (hlacks s file hs hfile))

theorem World.logging_log (w : World) (e : LogEntry) : (w.log e).logging = w.logging :=
  (World.idle_log w.logAvoids_nowhere e).logging

namespace Engaged

theorem log (h : Engaged away t place w₀ w) (hlog : w₀.LogAvoids away) (hlacks : w₀.LogLacks t.base) (e : LogEntry) :
    Engaged away t place w₀ (w.log e) where
  beside := h.beside.of_quiet (h.beside.log h.logging hlog hlacks e)
  works := by
    obtain ⟨files, hworks⟩ := h.works
    exact ⟨files, hworks.of_quiet ((h.beside.log h.logging hlog hlacks e).mono fun _ hp => .inr hp)⟩
  logging := (w.logging_log e).trans h.logging

theorem putFile (h : Engaged away t place w₀ w) (x content : Bytes) {w' : World}
    (hdisk : w'.disk = w.disk.putFile (place ++ [t.base] ++ [x]) content) (hlogging : w'.logging = w.logging) :
    Engaged away t place w₀ w' := by
  obtain ⟨files, hworks⟩ := h.works
  have hput := hworks.putFile x content
  rw [← hdisk] at hput
  refine ⟨h.beside.of_works hput (fun p hp => ?_) (by rw [hdisk]; exact Disk.cwd_put _ _ _), ⟨_, hput⟩,
    hlogging.trans h.logging⟩
  rw [hdisk, Disk.node?_putFile _ (by simp), if_neg]
  rintro rfl
  exact hp (by simp)

theorem store (h : Engaged away t place w₀ w) {x content : Bytes} (hx : Path.Plain x) {d : Disk}
    (hstored : w.disk.store (t.file x) content = .ok d) : Engaged away t place w₀ { w with disk := d } := by
  obtain ⟨files, hworks⟩ := h.works
  have hr := hworks.reaches_of_store hx hstored
  rw [hworks.store_file hx hr] at hstored
  cases hstored
  exact h.putFile x content rfl rfl

theorem written (h : Engaged away t place w₀ w) {out : Bytes} (hout : Path.Plain out) {args : List Bytes}
    (hflag : Invocation.argumentOf "-Fo" args = some (t.file out)) (response : Response) {w' : World}
    (hdisk : w'.disk = Runner.written w.disk args response) (hlogging : w'.logging = w.logging) :
    Engaged away t place w₀ w' := by
  obtain ⟨files, hworks⟩ := h.works
  rcases written_works hworks hout hflag response with hsame | ⟨code, -, -, hput⟩
  · exact ⟨by rw [hdisk, hsame]; exact h.beside, by rw [hdisk, hsame]; exact h.works, hlogging.trans h.logging⟩
  · exact h.putFile out code (hdisk.trans hput) hlogging

theorem remove (h : Engaged away t place w₀ w) {x : Bytes} (hx : Path.Plain x) {d : Disk}
    (hremoved : w.disk.remove (t.file x) = .ok d) : Engaged away t place w₀ { w with disk := d } := by
  obtain ⟨files, hworks⟩ := h.works
  cases hfind : w.disk.find false (t.file x) with
  | error cause =>
    simp only [Disk.remove, Disk.inspect, hfind] at hremoved
    cases hremoved
  | ok f =>
    have hr := hworks.reaches_of_find hx hfind
    cases hfile : files x with
    | none =>
      rw [hworks.find_file hx hr, hfile] at hfind
      cases hfind
      simp only [Disk.remove, Disk.inspect, hworks.find_file hx hr, hfile, Disk.Works.found] at hremoved
      cases hremoved
    | some n =>
      obtain ⟨content, time, rfl⟩ := hworks.regular x n hfile
      rw [hworks.remove_file hx hr hfile] at hremoved
      cases hremoved
      refine ⟨h.beside.of_works (hworks.erase x) (fun p hp => ?_) rfl, ⟨_, hworks.erase x⟩, h.logging⟩
      rw [Disk.node?_erase _ (by simp), if_neg fun hin => hp (hin.subset (by simp))]

theorem stageBytecode (hlog : w₀.LogAvoids away) (hlacks : w₀.LogLacks t.base) {e : StageKind × Stage} {src : Bytes}
    (hsrc : Path.Plain src) (he : StageKind.ofEntryPoint? e.2.entryPoint = some e.1) (map : SourceMap) :
    Step.Keeps (Engaged away t place w₀)
      (stageBytecode o e.1 e.2 (t.file src) (t.file (outputName e.2)) map) := by
  have hout := plain_outputName he
  have hremove : ∀ w d, Engaged away t place w₀ w → w.disk.remove (t.file (outputName e.2)) = .ok d →
      Engaged away t place w₀ { w with disk := d } := fun w d hw hd => hw.remove hout hd
  refine keeps_stageBytecode (keeps_compileStage (fun prof hprof => ?_) hremove fun w entry hw => ?_) hremove
  · have hflag := argumentOf_stageArguments (o := o) (t := t) he hsrc
    rw [stageArguments_eq hprof] at hflag
    exact Runner.keeps_run fun w tool _ hw => hw.written hout hflag _ rfl rfl
  · exact hw.log hlog hlacks entry

end Engaged

end Engagement

/-! ## Once encoding is over -/

/-- Nothing is left between the two worlds but quiet changes. -/
structure World.Still (away : Place → Prop) (w w' : World) : Prop where
  disk : Disk.Quiet away w.disk w'.disk
  logging : w'.logging = w.logging

theorem World.Still.refl (away : Place → Prop) (w : World) : w.Still away w := ⟨.refl away w.disk, rfl⟩

theorem World.Still.trans {w' w'' : World} (h : w.Still away w') (h' : w'.Still away w'') :
    w.Still away w'' :=
  ⟨h.disk.trans h'.disk, h'.logging.trans h.logging⟩

theorem World.Still.of_idle {w' : World} (h : w.Idle away w') : w.Still away w' :=
  ⟨h.disk, h.logging⟩

theorem World.log_isTree (w : World) (e : LogEntry) (h : w.disk.IsTree) : (w.log e).disk.IsTree := by
  unfold World.log
  split
  · exact h
  split
  · exact h
  rename_i s _ _
  have hconsole : (if s.console then { w with stderr := w.stderr ++ e.consoleLine } else w).disk = w.disk := by
    split <;> rfl
  dsimp only
  split
  · rwa [hconsole]
  · rw [hconsole]
    exact h.appendLog _ _

theorem ParserSettings.host_isTree (s : ParserSettings) : s.host.Keeps fun w => w.disk.IsTree where
  read p w hw := by
    unfold host SourceReader.read
    cases s.reader with
    | disk => exact hw
    | cached =>
      obtain ⟨cache, hrun⟩ := run_readThrough w.disk p w
      show ((readThrough CacheCalls.world w.disk p).run w).2.disk.IsTree
      rw [hrun]
      exact hw
    | memory texts =>
      dsimp only
      split <;> exact hw
  present p w hw := hw
  note n w hw := by cases n <;> exact w.log_isTree _ hw

theorem parseFile_isTree (s : ParserSettings) (path : Path) (w : World) (hw : w.disk.IsTree) :
    ((parseFile s path).run w).2.disk.IsTree := by
  obtain ⟨r, w', hrun, htree, -⟩ := runs_parse s.host_isTree (s.options w) path w hw
  rw [run_parseFile, hrun]
  exact htree

theorem Runner.written_isTree {d : Disk} (h : d.IsTree) (args : List Bytes) (response : Response) :
    (written d args response).IsTree := by
  unfold written
  split
  · split
    · rename_i hstored
      exact h.store hstored
    · exact h
  · exact h

theorem compileStages_isTree (o : PipelineOptions) (compiler : CompilerOptions) (name : Bytes) (r : Recovered) :
    Step.Keeps (fun w => w.disk.IsTree) (compileStages o compiler name r) := by
  have hremove : ∀ (output : Path) (w : World) (d : Disk), w.disk.IsTree → w.disk.remove output = .ok d →
      d.IsTree := fun output w d hw hd => hw.remove hd
  refine Step.keeps_bind Step.keeps_get fun w₀ => Step.keeps_bind (Step.keeps_lift ?_) fun dir => ?_
  · exact Action.keeps_performWith fun w a d hw hmade => hw.mkdirTemp hmade
  refine Step.keeps_ensuring (Step.keeps_bind (Step.keeps_lift ?_) fun _ => ?_) fun w hw => hw.removeAll dir
  · exact Action.keeps_perform fun w d hw hstored => hw.store hstored
  refine keeps_stagesBytecode fun e _ => keeps_stageBytecode ?_ (hremove _)
  refine keeps_compileStage (fun prof _ => ?_) (hremove _) World.log_isTree
  exact Runner.keeps_run fun w tool _ hw => Runner.written_isTree hw _ _

theorem encodeSteps_isTree (o : PipelineOptions) (name : Bytes) (source : Path) (backend : Backend) :
    Step.Keeps (fun w => w.disk.IsTree) (encodeSteps o name source backend) := by
  refine Step.keeps_bind ?_ fun prepared => ?_
  · refine Step.keeps_bind (Step.keeps_require _ _) fun _ => Step.keeps_bind (Step.keeps_require _ _) fun _ =>
      Step.keeps_bind (Step.keeps_require _ _) fun dialect => ?_
    exact Step.keeps_bind (Step.keeps_lift (parseFile_isTree o.parser source)) fun r => Step.keeps_pure _
  · refine Step.keeps_bind (Step.keeps_log World.log_isTree _ _ _ _) fun _ => ?_
    refine Step.keeps_bind (compileStages_isTree _ _ _ _) fun bytecode => ?_
    refine Step.keeps_bind (Step.keeps_require _ _) fun data => ?_
    exact Step.keeps_bind (Step.keeps_log World.log_isTree _ _ _ _) fun _ => Step.keeps_pure _

end ShaderForge
