import Mathlib
import ShaderForge.Proofs.Pipeline.Outcome

/-!
# ShaderForge.Proofs.Pipeline.ToolCalls

The calls of the tool as a sequence: when a call is made, with what, and what has gone well before it.

* `Attempt`        — an attempt to run the tool, with the world that it begins in.
* `encodeAttempts` — the attempts that encoding makes.
* `StagesCourse`   — the courses that the stages can take, with the attempts made on the way.
* `Orderly`        — the rules that a sequence of attempts keeps.
* `encodeShader_orderly` — every encoding keeps them, and what is recorded as called are its attempts.
-/

namespace ShaderForge

/-! ## Attempts -/

/-- An attempt to run the tool: the stage it is for, its arguments, the path that its bytecode shall go to, and the
world that it begins in. -/
structure Attempt where
  stage : StageKind × Stage
  arguments : List Bytes
  output : Path
  before : World

/-- The attempt for a stage, in a work directory, with the merged source. -/
def CompilerOptions.attempt (o : CompilerOptions) (dir source : Path) (e : StageKind × Stage) (w : World) : Attempt :=
  ⟨e, o.stageArguments dir source e, Path.join dir (outputName e.2), w⟩

/-- What an attempt gives, and the world that it leaves. The tool need not be there. -/
def Attempt.ran (o : CompilerOptions) (a : Attempt) : RunResult × World := (o.runner.run o.tool a.arguments).run a.before

/-- The tool has not failed and its output file is there. -/
def Attempt.Succeeded (o : CompilerOptions) (a : Attempt) : Prop :=
  (a.ran o).1.failure = none ∧ ((a.ran o).2.disk.stat a.output).isOk = true

instance (o : CompilerOptions) (a : Attempt) : Decidable (a.Succeeded o) := inferInstanceAs (Decidable (_ ∧ _))

/-- The attempts for a list of stages: none once work is cancelled, and none behind a stage that is not compiled. -/
def stageAttempts (o : CompilerOptions) (dir source : Path) (map : SourceMap) :
    List (StageKind × Stage) → World → List Attempt
  | [], _ => []
  | e :: l, w =>
    if w.cancelled then []
    else
      o.attempt dir source e w ::
        match (stageBytecode o e.1 e.2 source (Path.join dir (outputName e.2)) map).run.run w with
        | (.ok _, w') => stageAttempts o dir source map l w'
        | (.error _, _) => []

def compileAttempts (o : PipelineOptions) (compiler : CompilerOptions) (name : Bytes) (r : Recovered) (w : World) :
    List Attempt :=
  match w.disk.mkdirTemp (o.workParent w) (workPattern name) with
  | .error _ => []
  | .ok (dir, d) =>
    match d.store (Path.join dir (sourceName name)) r.source with
    | .error _ => []
    | .ok d' =>
      stageAttempts compiler dir (Path.join dir (sourceName name)) r.map r.stages.ordered { w with disk := d' }

def encodeAttempts (o : PipelineOptions) (name : Bytes) (source : Path) (backend : Backend) (w : World) :
    List Attempt :=
  match (prepare name backend (parseFile o.parser source)).run.run w with
  | (.error _, _) => []
  | (.ok (_, r), w') => compileAttempts o o.compiler.withDefaults name r (w'.parsed o name r)

/-- What is recorded of attempts: a tool that is not there is not called. -/
def recorded (o : CompilerOptions) (attempts : List Attempt) : List (List Bytes) :=
  if (o.runner.tool? o.tool).isSome then attempts.map fun a => o.tool :: a.arguments else []

theorem recorded_cons (o : CompilerOptions) (a : Attempt) (attempts : List Attempt) :
    recorded o (a :: attempts) = recorded o [a] ++ recorded o attempts := by
  unfold recorded
  split <;> rfl

/-! ## One stage -/

/-- The worlds differ by neither calls nor cancellation. -/
structure World.Uncalled (w w' : World) : Prop where
  calls : w'.calls = w.calls
  cancelled : w'.cancelled = w.cancelled

theorem World.Idle.uncalled {away : Place → Prop} {w w' : World} (h : w.Idle away w') : w.Uncalled w' :=
  ⟨h.calls, h.cancelled⟩

theorem World.Uncalled.trans {w w' w'' : World} (h : w.Uncalled w') (h' : w'.Uncalled w'') : w.Uncalled w'' :=
  ⟨h'.calls.trans h.calls, h'.cancelled.trans h.cancelled⟩

theorem World.uncalled_log (w : World) (entry : LogEntry) : w.Uncalled (w.log entry) :=
  (World.idle_log w.logAvoids_nowhere entry).uncalled

theorem Runner.calls_run {r : Runner} {name : Bytes} (hname : name ≠ []) (args : List Bytes) {w : World}
    (hlive : w.cancelled = false) :
    ((r.run name args).run w).2.calls = w.calls ++ if (r.tool? name).isSome then [name :: args] else [] := by
  cases htool : r.tool? name with
  | some tool =>
    obtain ⟨process, hrun⟩ := Runner.run_of_tool? htool hname hlive args
    rw [hrun]
    exact (Runner.called_of_call rfl).2.calls
  | none =>
    cases r with
    | direct tool => cases htool
    | system programs =>
      have hnone : programs name = none := htool
      have hlookup : ∃ failure, Runner.lookup programs name w.disk = .error failure := by
        unfold Runner.lookup
        simp only [hnone]
        repeat' split
        all_goals exact ⟨_, rfl⟩
      obtain ⟨failure, hlookup⟩ := hlookup
      rw [Runner.run, Action.run_bind, Action.run_get]
      simp only [hlookup]
      exact (List.append_nil _).symm

/-- What comes of a stage, by its attempt: without success it is a failure of the tool; with success there is
bytecode, if it can be read. -/
inductive StageComes (succeeded : Prop) : Except CompileCause Bytes → Prop
  | failed {error : ToolError} (h : ¬ succeeded) : StageComes succeeded (.error (.tool error))
  | unread {kind : StageKind} {error : FileError} (h : succeeded) : StageComes succeeded (.error (.bytecode kind error))
  | compiled {code : Bytes} (h : succeeded) : StageComes succeeded (.ok code)

section Stage

variable {e : StageKind × Stage}

/-- A stage that has a profile is compiled exactly if the call goes well and leaves its file. -/
theorem compileStage_isOk {o : CompilerOptions} {kind : StageKind} {entry prof : Bytes} {source output : Path} {w : World}
    (hprof : profile kind o.shaderModel = .ok prof) {result : RunResult} {w₁ : World}
    (hcall : (o.runner.run o.tool (o.arguments prof entry source output)).run w = (result, w₁)) :
    ((compileStage o kind entry source output).run w).1.isOk = true ↔
      result.failure = none ∧ (w₁.disk.stat output).isOk = true := by
  unfold compileStage
  rw [hprof]
  dsimp only
  rw [Action.run_bind, hcall]
  dsimp only
  cases result.failure with
  | some failure => exact ⟨fun h => (by cases h), fun h => (by cases h.1)⟩
  | none =>
    dsimp only
    rw [Action.run_bind, Action.run_look]
    cases w₁.disk.stat output with
    | error e => exact ⟨fun h => (by cases h), fun h => (by cases h.2)⟩
    | ok n => exact ⟨fun _ => ⟨rfl, rfl⟩, fun _ => rfl⟩

theorem compileStage_succeeds (he : StageKind.ofEntryPoint? e.2.entryPoint = some e.1) (o : CompilerOptions)
    (dir source : Path) (w : World) :
    ((compileStage o e.1 e.2.entryPoint source (Path.join dir (outputName e.2))).run w).1.isOk = true ↔
      (o.attempt dir source e w).Succeeded o := by
  obtain ⟨b, rest, -, hprof⟩ := profile_of_ofEntryPoint? he o.shaderModel
  rw [compileStage_isOk hprof rfl, ← stageArguments_eq hprof]
  rfl

theorem stageBytecode_comes (he : StageKind.ofEntryPoint? e.2.entryPoint = some e.1) (o : CompilerOptions)
    (dir source : Path) (map : SourceMap) (w : World) :
    StageComes ((o.attempt dir source e w).Succeeded o)
      ((stageBytecode o e.1 e.2 source (Path.join dir (outputName e.2)) map).run.run w).1 := by
  have hiff := compileStage_succeeds he o dir source w
  obtain ⟨b, rest, -, hprof⟩ := profile_of_ofEntryPoint? he o.shaderModel
  unfold stageBytecode
  rw [Step.run_bind, Step.run_lift]
  rcases hcompile : (compileStage o e.1 e.2.entryPoint source (Path.join dir (outputName e.2))).run w with
    ⟨error | path, w₁⟩
  · rw [hcompile] at hiff
    have hfailed : ¬ (o.attempt dir source e w).Succeeded o := fun h => by cases hiff.2 h
    obtain ⟨e', rfl⟩ := compileStage_error hprof hcompile
    obtain ⟨e'', hremap⟩ := remapStageError_tool source map e'
    dsimp only
    rw [hremap]
    exact .failed hfailed
  · rw [hcompile] at hiff
    have hsucceeded := hiff.1 rfl
    dsimp only
    rw [Step.run_ensuring, Step.run_lift, Action.run_look]
    cases w₁.disk.contents path with
    | error e' => exact .unread hsucceeded
    | ok code => exact .compiled hsucceeded

theorem stageBytecode_uncalled (he : StageKind.ofEntryPoint? e.2.entryPoint = some e.1) (o : CompilerOptions)
    (dir source : Path) (map : SourceMap) (w : World) :
    ((o.attempt dir source e w).ran o).2.Uncalled
      ((stageBytecode o e.1 e.2 source (Path.join dir (outputName e.2)) map).run.run w).2 := by
  obtain ⟨b, rest, -, hprof⟩ := profile_of_ofEntryPoint? he o.shaderModel
  have hremove : ∀ (w₁ : World) (d : Disk), ((o.attempt dir source e w).ran o).2.Uncalled w₁ →
      w₁.disk.remove (Path.join dir (outputName e.2)) = .ok d →
      ((o.attempt dir source e w).ran o).2.Uncalled { w₁ with disk := d } :=
    fun w₁ d hw₁ _ => ⟨hw₁.calls, hw₁.cancelled⟩
  refine after_stageBytecode (after_compileStage hprof ?_ hremove fun w₁ entry hw₁ => ?_) hremove
  · rw [← stageArguments_eq hprof]
    exact ⟨rfl, rfl⟩
  · exact hw₁.trans (w₁.uncalled_log entry)

end Stage

/-! ## All stages -/

/-- The courses that a list of stages can take from a world: with the attempts that are made, what comes of it, and
the world that it ends in. -/
inductive StagesCourse (o : CompilerOptions) (dir source : Path) (map : SourceMap) :
    List (StageKind × Stage) → World → List Attempt → Except CompileCause (List Bytes) → World → Prop
  | done (w : World) : StagesCourse o dir source map [] w [] (.ok []) w
  | cancelled {e : StageKind × Stage} {l : List (StageKind × Stage)} {w : World} (h : w.cancelled = true) :
      StagesCourse o dir source map (e :: l) w [] (.error .cancelled) w
  | ended {e : StageKind × Stage} {l : List (StageKind × Stage)} {w w' : World} {cause : CompileCause}
      (hlive : w.cancelled = false)
      (hstage : (stageBytecode o e.1 e.2 source (Path.join dir (outputName e.2)) map).run.run w = (.error cause, w')) :
      StagesCourse o dir source map (e :: l) w [o.attempt dir source e w] (.error cause) w'
  | next {e : StageKind × Stage} {l : List (StageKind × Stage)} {w w₁ w' : World} {code : Bytes}
      {attempts : List Attempt} {result : Except CompileCause (List Bytes)} (hlive : w.cancelled = false)
      (hstage : (stageBytecode o e.1 e.2 source (Path.join dir (outputName e.2)) map).run.run w = (.ok code, w₁))
      (hrest : StagesCourse o dir source map l w₁ attempts result w') :
      StagesCourse o dir source map (e :: l) w (o.attempt dir source e w :: attempts) (result.map (code :: ·)) w'

theorem stagesCourse_of_run (o : CompilerOptions) (dir source : Path) (map : SourceMap) (l : List (StageKind × Stage))
    (w : World) : StagesCourse o dir source map l w (stageAttempts o dir source map l w)
      ((stagesBytecode o dir source map l).run.run w).1 ((stagesBytecode o dir source map l).run.run w).2 := by
  induction l generalizing w with
  | nil => exact .done w
  | cons e l ih =>
    rw [stageAttempts, run_stagesBytecode_cons]
    cases hlive : w.cancelled with
    | true => exact .cancelled hlive
    | false =>
      rw [if_neg Bool.false_ne_true, if_neg Bool.false_ne_true]
      rcases hstage : (stageBytecode o e.1 e.2 source (Path.join dir (outputName e.2)) map).run.run w with
        ⟨cause | code, w₁⟩
      · exact .ended hlive hstage
      · exact .next hlive hstage (ih w₁)

theorem mem_dropLast_cons {α : Type} {a b : α} {l : List α} (h : a ∈ (b :: l).dropLast) :
    l ≠ [] ∧ (a = b ∨ a ∈ l.dropLast) := by
  cases l with
  | nil => cases h
  | cons c l => exact ⟨List.cons_ne_nil _ _, List.mem_cons.1 h⟩

namespace StagesCourse

variable {o : CompilerOptions} {dir source : Path} {map : SourceMap} {l : List (StageKind × Stage)} {w w' : World}
  {attempts : List Attempt} {result : Except CompileCause (List Bytes)}

theorem stages (h : StagesCourse o dir source map l w attempts result w') : attempts.map (·.stage) <+: l := by
  induction h with
  | done => exact List.prefix_rfl
  | cancelled => exact List.nil_prefix
  | ended => exact ⟨_, rfl⟩
  | next _ _ _ ih => exact List.prefix_cons_inj _ |>.2 ih

theorem made (h : StagesCourse o dir source map l w attempts result w') :
    ∀ a ∈ attempts, a = o.attempt dir source a.stage a.before ∧ a.before.cancelled = false := by
  induction h with
  | done => simp
  | cancelled => simp
  | ended hlive => simpa using ⟨rfl, hlive⟩
  | next hlive _ _ ih =>
    intro a ha
    rcases List.mem_cons.1 ha with rfl | ha
    · exact ⟨rfl, hlive⟩
    · exact ih a ha

theorem live (h : StagesCourse o dir source map l w attempts result w') (hne : attempts ≠ []) : w.cancelled = false := by
  cases h with
  | done => exact absurd rfl hne
  | cancelled => exact absurd rfl hne
  | ended hlive => exact hlive
  | next hlive => exact hlive

section Known

variable (hl : ∀ e ∈ l, StageKind.ofEntryPoint? e.2.entryPoint = some e.1)

include hl

/-- All attempts but the last have succeeded and have not cancelled the work. -/
theorem succeeded (h : StagesCourse o dir source map l w attempts result w') :
    ∀ a ∈ attempts.dropLast, a.Succeeded o ∧ (a.ran o).2.cancelled = false := by
  induction h with
  | done => simp
  | cancelled => simp
  | ended => simp
  | @next e l w w₁ w' code attempts result hlive hstage hrest ih =>
    intro a ha
    have he := hl e List.mem_cons_self
    obtain ⟨hne, rfl | ha⟩ := mem_dropLast_cons ha
    · have hcomes := stageBytecode_comes he o dir source map w
      have huncalled := stageBytecode_uncalled he o dir source map w
      rw [hstage] at hcomes huncalled
      cases hcomes with
      | compiled hsucceeded => exact ⟨hsucceeded, huncalled.cancelled.symm.trans (hrest.live hne)⟩
    · exact ih (fun e he => hl e (List.mem_cons_of_mem _ he)) a ha

theorem calls (hname : o.tool ≠ []) (h : StagesCourse o dir source map l w attempts result w') :
    w'.calls = w.calls ++ recorded o attempts := by
  have hstep : ∀ {e : StageKind × Stage} {w w₁ : World} {r : Except CompileCause Bytes},
      StageKind.ofEntryPoint? e.2.entryPoint = some e.1 → w.cancelled = false →
      (stageBytecode o e.1 e.2 source (Path.join dir (outputName e.2)) map).run.run w = (r, w₁) →
      w₁.calls = w.calls ++ recorded o [o.attempt dir source e w] := by
    intro e w w₁ r he hlive hstage
    have huncalled := stageBytecode_uncalled he o dir source map w
    rw [hstage] at huncalled
    exact huncalled.calls.trans (Runner.calls_run hname _ hlive)
  induction h with
  | done => simp [recorded]
  | cancelled => simp [recorded]
  | ended hlive hstage => exact hstep (hl _ List.mem_cons_self) hlive hstage
  | next hlive hstage _ ih =>
    rw [ih fun e he => hl e (List.mem_cons_of_mem _ he), hstep (hl _ List.mem_cons_self) hlive hstage,
      List.append_assoc, ← recorded_cons]

/-- What comes of the stages, by the attempts: all are compiled, the last attempt has failed, or something else has come
between. -/
theorem comes (h : StagesCourse o dir source map l w attempts result w') :
    (∃ codes, result = .ok codes ∧ attempts.map (·.stage) = l ∧ ∀ a ∈ attempts, a.Succeeded o) ∨
      (∃ error a, result = .error (.tool error) ∧ attempts.getLast? = some a ∧ ¬ a.Succeeded o) ∨
      ∃ cause, result = .error cause ∧ cause.classes = [] ∧ ∀ a ∈ attempts, a.Succeeded o := by
  induction h with
  | done => exact .inl ⟨[], rfl, rfl, by simp⟩
  | cancelled => exact .inr (.inr ⟨_, rfl, rfl, by simp⟩)
  | @ended e l w w' cause hlive hstage =>
    have hcomes := stageBytecode_comes (hl e List.mem_cons_self) o dir source map w
    rw [hstage] at hcomes
    cases hcomes with
    | failed hfailed => exact .inr (.inl ⟨_, _, rfl, rfl, hfailed⟩)
    | unread hsucceeded => exact .inr (.inr ⟨_, rfl, rfl, by simpa using hsucceeded⟩)
  | @next e l w w₁ w' code attempts result hlive hstage hrest ih =>
    have hcomes := stageBytecode_comes (hl e List.mem_cons_self) o dir source map w
    rw [hstage] at hcomes
    cases hcomes with
    | compiled hsucceeded =>
    have hall : (∀ a ∈ attempts, a.Succeeded o) → ∀ a ∈ o.attempt dir source e w :: attempts, a.Succeeded o :=
      fun hrest => List.forall_mem_cons.2 ⟨hsucceeded, hrest⟩
    rcases ih fun e he => hl e (List.mem_cons_of_mem _ he) with
      ⟨codes, rfl, rfl, hsuccess⟩ | ⟨error, a, rfl, hlast, hfailed⟩ | ⟨cause, rfl, hclasses, hsuccess⟩
    · exact .inl ⟨_, rfl, rfl, hall hsuccess⟩
    · refine .inr (.inl ⟨error, a, rfl, ?_, hfailed⟩)
      rw [List.getLast?_cons, hlast, Option.getD_some]
    · exact .inr (.inr ⟨cause, rfl, hclasses, hall hsuccess⟩)

end Known

theorem bench {t : WorkPath} {place : Place} {src text : Bytes}
    (h : StagesCourse o t.dir (t.file src) map l w attempts result w')
    (hl : ∀ e ∈ l, StageKind.ofEntryPoint? e.2.entryPoint = some e.1 ∧ outputName e.2 ≠ src) (hsrc : Path.Plain src)
    (hreach : t.Reaches src) (hb : Bench t place src text w) : ∀ a ∈ attempts, Bench t place src text a.before := by
  induction h with
  | done => simp
  | cancelled => simp
  | ended => exact List.forall_mem_singleton.2 hb
  | next _ hstage _ ih =>
    obtain ⟨he, hne⟩ := hl _ List.mem_cons_self
    obtain ⟨hb₁, -⟩ := stageBytecode_bench hb hsrc hreach he hne hstage
    exact List.forall_mem_cons.2 ⟨hb, ih (fun e he => hl e (List.mem_cons_of_mem _ he)) hb₁⟩

end StagesCourse

/-! ## The whole source -/

/-- The rules that the attempts for a source keep. -/
structure Orderly (o : CompilerOptions) (source : Path) (r : Recovered) (attempts : List Attempt) : Prop where
  /-- One attempt for each of the first stages, in the order of the buffers. -/
  stages : attempts.map (·.stage) <+: r.stages.ordered
  buffers : attempts.map (·.stage.2.buffer) = (List.range attempts.length).map Int.ofNat
  /-- All are given the same source, each the profile and the entry point of its stage. -/
  arguments : ∀ a ∈ attempts, ∃ prof,
    (a.stage.1 = .vertex ∧ prof = "vs_" ++ o.shaderModel ∨ a.stage.1 = .pixel ∧ prof = "ps_" ++ o.shaderModel) ∧
      a.arguments = o.arguments prof a.stage.2.entryPoint source a.output
  outputs : (attempts.map (·.output)).Nodup
  succeeded : ∀ a ∈ attempts.dropLast, a.Succeeded o
  /-- An attempt that leaves the work cancelled is the last. -/
  live : ∀ a ∈ attempts, a.before.cancelled = false
  halted : ∀ a ∈ attempts.dropLast, (a.ran o).2.cancelled = false

theorem WorkPath.file_inj (t : WorkPath) {x y : Bytes} (hx : Path.Plain x) (hy : Path.Plain y) :
    t.file x = t.file y ↔ x = y := by
  refine ⟨fun h => ?_, fun h => h ▸ rfl⟩
  have hcomponents := congrArg Path.components h
  rw [t.components_file hx, t.components_file hy, List.append_cancel_left_eq] at hcomponents
  exact (List.cons.inj (List.cons.inj hcomponents).2).1

theorem Stages.Discovered.nodup_outputs {s : Stages} (h : s.Discovered) (t : WorkPath) :
    (s.ordered.map fun e => t.file (outputName e.2)).Nodup := by
  have hkinds := h.kinds_ordered
  have hkeys : (s.ordered.map Prod.fst).Nodup := ((sortBy_perm s.toList).map Prod.fst).nodup_iff.2 s.ascending.nodup
  refine hkeys.of_map.map_on fun e he e' he' heq => ?_
  refine List.inj_on_of_nodup_map hkeys he he' ?_
  -- the output is named for the entry point, which tells the kind
  have hname := (t.file_inj (plain_outputName (hkinds e he)) (plain_outputName (hkinds e' he'))).1 heq
  have hentry : e.2.entryPoint = e'.2.entryPoint := List.append_cancel_right hname
  have hkind := hkinds e he
  rw [hentry, hkinds e' he'] at hkind
  exact (Option.some.inj hkind).symm

theorem orderly_of_course {o : CompilerOptions} {t : WorkPath} {source : Path} {r : Recovered} {w w' : World}
    {attempts : List Attempt} {result : Except CompileCause (List Bytes)} (hstages : r.stages.Discovered)
    (h : StagesCourse o t.dir source r.map r.stages.ordered w attempts result w') : Orderly o source r attempts := by
  have hkinds := hstages.kinds_ordered
  refine ⟨h.stages, ?_, fun a ha => ?_, ?_, fun a ha => (h.succeeded hkinds a ha).1, fun a ha => (h.made a ha).2,
    fun a ha => (h.succeeded hkinds a ha).2⟩
  · have hbuffers := List.prefix_iff_eq_take.1 (h.stages.map (·.2.buffer))
    rw [hstages.map_buffer_ordered, ← List.map_take, List.take_range, List.length_map, List.length_map] at hbuffers
    have hle := h.stages.length_le
    rw [List.length_map, Stages.Discovered.length_ordered] at hle
    rw [Nat.min_eq_left hle, List.map_map] at hbuffers
    exact hbuffers
  · obtain ⟨hmade, -⟩ := h.made a ha
    have hmem : a.stage ∈ r.stages.ordered := h.stages.subset (List.mem_map_of_mem ha)
    have harguments : a.arguments = o.stageArguments t.dir source a.stage := congrArg Attempt.arguments hmade
    have houtput : a.output = Path.join t.dir (outputName a.stage.2) := congrArg Attempt.output hmade
    rcases StageKind.eq_of_ofEntryPoint? (hkinds _ hmem) with ⟨hkind, -⟩ | ⟨hkind, -⟩
    · have hprof : profile a.stage.1 o.shaderModel = .ok ("vs_" ++ o.shaderModel) := by rw [hkind]; rfl
      exact ⟨_, .inl ⟨hkind, rfl⟩, by rw [harguments, houtput, stageArguments_eq hprof]⟩
    · have hprof : profile a.stage.1 o.shaderModel = .ok ("ps_" ++ o.shaderModel) := by rw [hkind]; rfl
      exact ⟨_, .inr ⟨hkind, rfl⟩, by rw [harguments, houtput, stageArguments_eq hprof]⟩
  · have hmap : attempts.map (·.output) = (attempts.map (·.stage)).map fun e => t.file (outputName e.2) := by
      rw [List.map_map]
      exact List.map_congr_left fun a ha => congrArg Attempt.output (h.made a ha).1
    rw [hmap]
    exact (hstages.nodup_outputs t).sublist (h.stages.map _).sublist

/-- The courses of the stages of a source that is parsed: there is no bench for them, or they are compiled on one. -/
inductive WorkCourse (o : PipelineOptions) (compiler : CompilerOptions) (name : Bytes) (r : Recovered) (w : World) :
    List Attempt → Except CompileCause (List Bytes) → World → Prop
  | unprepared {cause : CompileCause} {w' : World} (hclasses : cause.classes = []) (hw : w.Uncalled w') :
      WorkCourse o compiler name r w [] (.error cause) w'
  | prepared {t : WorkPath} {n : Nat} {d d' d'' : Disk} {attempts : List Attempt}
      {result : Except CompileCause (List Bytes)} {w' : World}
      (hdraws : w.disk.Draws (o.workParent w) (workPattern name) n) (hbase : t.base = Disk.freshName (workPattern name) n)
      (hmake : w.disk.mkdirTemp (o.workParent w) (workPattern name) = .ok (t.dir, d))
      (hstore : d.store (t.file (sourceName name)) r.source = .ok d')
      (hcourse : StagesCourse compiler t.dir (t.file (sourceName name)) r.map r.stages.ordered { w with disk := d' }
        attempts result w') :
      WorkCourse o compiler name r w attempts result { w' with disk := d'' }

theorem workCourse_of_run (o : PipelineOptions) (compiler : CompilerOptions) (name : Bytes) (r : Recovered)
    (w : World) : WorkCourse o compiler name r w (compileAttempts o compiler name r w)
      ((compileStages o compiler name r).run.run w).1 ((compileStages o compiler name r).run.run w).2 := by
  rw [compileStages_eq, compileAttempts]
  cases hmake : w.disk.mkdirTemp (o.workParent w) (workPattern name) with
  | error e => exact .unprepared rfl ⟨rfl, rfl⟩
  | ok made =>
    obtain ⟨dir, d⟩ := made
    obtain ⟨hslash, n, hdraws, hdir, -⟩ := Disk.mkdirTemp_eq_ok hmake
    obtain ⟨t, ht, hbase⟩ := Disk.exists_workPath (o.workParent w) (Disk.plain_freshName hslash n)
    obtain rfl : dir = t.dir := hdir.trans ht.symm
    dsimp only
    cases hstore : d.store (Path.join t.dir (sourceName name)) r.source with
    | error e => exact .unprepared rfl ⟨rfl, rfl⟩
    | ok d' => exact .prepared hdraws hbase hmake hstore (stagesCourse_of_run _ _ _ _ _ _)

/-- The courses that encoding can take, with the attempts made on the way. -/
inductive EncodeTrace (o : PipelineOptions) (name : Bytes) (source : Path) (backend : Backend) (w : World) :
    List Attempt → Except CompileCause Bytes → World → Prop
  | misnamed {fault : NameFault} (hname : checkName name = .error fault) :
      EncodeTrace o name source backend w [] (.error (.name fault)) w
  | untargeted (hname : checkName name = .ok ()) (hbackend : backend ≠ .directX12) :
      EncodeTrace o name source backend w [] (.error (.target (.noCompiler backend))) w
  | unparsed {e : ParseError} {w₁ : World} (hname : checkName name = .ok ()) (hbackend : backend = .directX12)
      (hparse : (parseFile o.parser source).run w = (.error e, w₁)) :
      EncodeTrace o name source backend w [] (.error (.parse e)) w₁
  | worked {r : Recovered} {w₁ w₂ w' : World} {attempts : List Attempt} {codes : Except CompileCause (List Bytes)}
      {result : Except CompileCause Bytes} (hname : checkName name = .ok ()) (hbackend : backend = .directX12)
      (hparse : (parseFile o.parser source).run w = (.ok r, w₁))
      (hwork : WorkCourse o o.compiler.withDefaults name r (w₁.parsed o name r) attempts codes w₂)
      (hresult : result = codes >>= fun bytecode => (Artifact.encode .dxil
        (some { r.metadata name with stages := some r.stages.renumbered }) bytecode).mapError .artifact)
      (hw : w₂.Uncalled w') : EncodeTrace o name source backend w attempts result w'

theorem encodeTrace_of_run (o : PipelineOptions) (name : Bytes) (source : Path) (backend : Backend) (w : World) :
    EncodeTrace o name source backend w (encodeAttempts o name source backend w)
      ((encodeSteps o name source backend).run.run w).1 ((encodeSteps o name source backend).run.run w).2 := by
  rw [encodeSteps, Step.run_bind, encodeAttempts, prepare_eq]
  cases hname : checkName name with
  | error fault => exact .misnamed hname
  | ok _ =>
  by_cases hbackend : backend = .directX12
  · subst hbackend
    simp only [if_pos]
    rcases hparse : (parseFile o.parser source).run w with ⟨e | r, w₁⟩
    · exact .unparsed hname rfl hparse
    have hparsed : w₁.log ⟨.debug, o.logger, "shader parsed",
        [.text "shader" name, .text "backend" Backend.directX12.label] ++
          [.nat "stages" r.stages.size, .nat "exports" r.exports.size,
            .nat "files" r.map.files.length]⟩ = w₁.parsed o name r := rfl
    have hwork := workCourse_of_run o o.compiler.withDefaults name r (w₁.parsed o name r)
    simp only [assemble, Step.run_bind, Step.run_require, Step.run_log, Step.run_pure, hparsed]
    rcases hcompile : (compileStages o o.compiler.withDefaults name r).run.run (w₁.parsed o name r) with
      ⟨cause | bytecode, w₂⟩
    · rw [hcompile] at hwork
      exact .worked hname rfl hparse hwork rfl ⟨rfl, rfl⟩
    rw [hcompile] at hwork
    dsimp only
    cases hencode : Artifact.encode .dxil
        (some { r.metadata name with stages := some r.stages.renumbered }) bytecode with
    | error e =>
      refine .worked hname rfl hparse hwork ?_ ⟨rfl, rfl⟩
      show _ = (Artifact.encode .dxil _ bytecode).mapError CompileCause.artifact
      rw [hencode]
      rfl
    | ok data =>
      refine .worked hname rfl hparse hwork ?_ (w₂.uncalled_log _)
      show _ = (Artifact.encode .dxil _ bytecode).mapError CompileCause.artifact
      rw [hencode]
      rfl
  · simp only [if_neg hbackend]
    exact .untargeted hname hbackend

namespace WorkCourse

variable {o : PipelineOptions} {compiler : CompilerOptions} {name : Bytes} {r : Recovered} {w w' : World}
  {attempts : List Attempt} {result : Except CompileCause (List Bytes)}

theorem live (h : WorkCourse o compiler name r w attempts result w') (hne : attempts ≠ []) : w.cancelled = false := by
  cases h with
  | unprepared => exact absurd rfl hne
  | prepared _ _ _ _ hcourse => exact hcourse.live hne

theorem calls (h : WorkCourse o compiler name r w attempts result w') (hstages : r.stages.Discovered)
    (hname : compiler.tool ≠ []) : w'.calls = w.calls ++ recorded compiler attempts := by
  cases h with
  | unprepared _ hw => simpa [recorded] using hw.calls
  | prepared _ _ _ _ hcourse =>
    have hcalls := hcourse.calls hstages.kinds_ordered hname
    exact hcalls

theorem orderly (h : WorkCourse o compiler name r w attempts result w') (hstages : r.stages.Discovered)
    (hne : attempts ≠ []) :
    ∃ dir d, w.disk.mkdirTemp (o.workParent w) (workPattern name) = .ok (dir, d) ∧
      Orderly compiler (Path.join dir (sourceName name)) r attempts ∧
      ((Bytes.slash ∉ workPattern name → FreshName o name w) →
        ∀ a ∈ attempts, a.before.disk.contents (Path.join dir (sourceName name)) = .ok r.source) := by
  cases h with
  | unprepared => exact absurd rfl hne
  | @prepared t n d d' _ _ _ _ hdraws hbase hmake hstore hcourse =>
    refine ⟨t.dir, d, hmake, orderly_of_course hstages hcourse, fun hfresh a ha => ?_⟩
    obtain ⟨hslash, _, -, -, hmkdir⟩ := Disk.mkdirTemp_eq_ok hmake
    obtain ⟨hunmentioned, hlacks⟩ := hfresh hslash n hdraws
    rw [← hbase] at hunmentioned hlacks
    obtain ⟨place, hholds, -⟩ := Disk.holds_of_mkdir hunmentioned hmkdir
    have hplain := plain_sourceName hslash
    obtain ⟨hbench, hreach⟩ := bench_of_store (w := { w with disk := d }) hholds hlacks hplain hstore
    obtain ⟨time, hworks⟩ := (hcourse.bench (fun e he => ⟨hstages.kinds_ordered e he, outputName_ne_sourceName e.2 name⟩)
      hplain hreach hbench a ha).works
    exact hworks.contents_file hplain hreach (Function.update_self _ _ _)

theorem complete {codes : List Bytes} (h : WorkCourse o compiler name r w attempts (.ok codes) w')
    (hstages : r.stages.Discovered) :
    attempts.map (·.stage) = r.stages.ordered ∧ ∀ a ∈ attempts, a.Succeeded compiler := by
  cases h with
  | prepared _ _ _ _ hcourse =>
    rcases hcourse.comes hstages.kinds_ordered with ⟨-, -, hall⟩ | ⟨_, _, hresult, -⟩ | ⟨_, hresult, -⟩
    · exact hall
    · cases hresult
    · cases hresult

end WorkCourse

namespace EncodeTrace

variable {o : PipelineOptions} {name : Bytes} {source : Path} {backend : Backend} {w w' : World}
  {attempts : List Attempt} {result : Except CompileCause Bytes}

theorem calls (h : EncodeTrace o name source backend w attempts result w') :
    w'.calls = w.calls ++ recorded o.compiler.withDefaults attempts := by
  have hnone : recorded o.compiler.withDefaults [] = [] := ite_self _
  cases h with
  | misnamed => rw [hnone, List.append_nil]
  | untargeted => rw [hnone, List.append_nil]
  | unparsed _ _ hparse =>
    rw [hnone, List.append_nil]
    exact (parseFile_idle o.parser source w.logAvoids_nowhere hparse).1.calls
  | @worked r w₁ _ _ _ _ _ _ _ hparse hwork _ hw =>
    have hidle : w.Idle (fun _ => False) (w₁.parsed o name r) := idle_parsed w.logAvoids_nowhere hparse
    have hcalls := hwork.calls (wellFormed_of_parseFile hparse).stages o.compiler.tool_withDefaults
    rw [hw.calls, hcalls, hidle.calls]

theorem live (h : EncodeTrace o name source backend w attempts result w') (hne : attempts ≠ []) :
    w.cancelled = false := by
  cases h with
  | misnamed => exact absurd rfl hne
  | untargeted => exact absurd rfl hne
  | unparsed => exact absurd rfl hne
  | @worked r w₁ _ _ _ _ _ _ _ hparse hwork =>
    have hidle : w.Idle (fun _ => False) (w₁.parsed o name r) := idle_parsed w.logAvoids_nowhere hparse
    exact hidle.cancelled.symm.trans (hwork.live hne)

theorem orderly (h : EncodeTrace o name source backend w attempts result w') (hne : attempts ≠ []) :
    checkName name = .ok () ∧ backend = .directX12 ∧
      ∃ r w₁ dir d, (parseFile o.parser source).run w = (.ok r, w₁) ∧
        (w₁.parsed o name r).disk.mkdirTemp (o.workParent (w₁.parsed o name r)) (workPattern name) = .ok (dir, d) ∧
        Orderly o.compiler.withDefaults (Path.join dir (sourceName name)) r attempts ∧
        (FreshName o name w →
          ∀ a ∈ attempts, a.before.disk.contents (Path.join dir (sourceName name)) = .ok r.source) := by
  cases h with
  | misnamed => exact absurd rfl hne
  | untargeted => exact absurd rfl hne
  | unparsed => exact absurd rfl hne
  | worked hname hbackend hparse hwork =>
    obtain ⟨dir, d, hmake, horderly, hsource⟩ := hwork.orderly (wellFormed_of_parseFile hparse).stages hne
    exact ⟨hname, hbackend, _, _, dir, d, hparse, hmake, horderly, fun hfresh => hsource fun hslash =>
      hfresh.of_idle hslash fun away hlog => idle_parsed hlog hparse⟩

theorem complete {data : Bytes} (h : EncodeTrace o name source backend w attempts (.ok data) w') :
    ∃ r w₁, (parseFile o.parser source).run w = (.ok r, w₁) ∧ attempts.map (·.stage) = r.stages.ordered ∧
      ∀ a ∈ attempts, a.Succeeded o.compiler.withDefaults := by
  cases h with
  | worked _ _ hparse hwork hresult =>
    obtain ⟨codes, rfl, -⟩ := bind_eq_ok_iff.1 hresult.symm
    exact ⟨_, _, hparse, hwork.complete (wellFormed_of_parseFile hparse).stages⟩

end EncodeTrace

end ShaderForge
