import ShaderForge.Pipeline.Compile
import ShaderForge.Proofs.Files.WorkDirectory
import ShaderForge.Proofs.Pipeline.Assembly
import ShaderForge.Proofs.Pipeline.Parsing

/-!
# ShaderForge.Proofs.Pipeline.Stages

The calls of the native compiler, each for one stage, and what becomes of the files they write.

* `Step.run_bind`, `Step.run_bind_ok` — steps in sequence.
* `Runner.tool?`       — the tool that a name stands for.
* `Bench`              — a work directory that holds the merged source, in a world that logs elsewhere.
* `compileStage_bench` — a call that succeeds has written the output file.
* `stagesBytecode_bench`, `compileStages_ok` — the bytecode of each stage is what its own call wrote.
-/

namespace ShaderForge

/-! ## Steps -/

namespace Step

variable {σ ε κ α β : Type} {w w' : σ}

theorem run_pure (a : α) (w : σ) : (pure a : ExceptT κ (StateM σ) α).run.run w = (.ok a, w) := rfl

theorem run_bind (x : ExceptT κ (StateM σ) α) (f : α → ExceptT κ (StateM σ) β) (w : σ) :
    (x >>= f).run.run w = match x.run.run w with
      | (.ok a, w₁) => (f a).run.run w₁
      | (.error e, w₁) => (.error e, w₁) := by
  rw [ExceptT.run_bind, StateT.run_bind]
  cases x.run.run w with
  | mk r w₁ => cases r <;> rfl

theorem run_bind_ok {x : ExceptT κ (StateM σ) α} {f : α → ExceptT κ (StateM σ) β} {b : β}
    (h : (x >>= f).run.run w = (.ok b, w')) :
    ∃ a w₁, x.run.run w = (.ok a, w₁) ∧ (f a).run.run w₁ = (.ok b, w') := by
  rw [run_bind] at h
  split at h
  · rename_i a w₁ hx
    exact ⟨a, w₁, hx, h⟩
  · cases h

theorem run_lift (cause : ε → CompileCause) (a : StateM σ (Except ε α)) (w : σ) :
    (lift cause a).run.run w = match a.run w with
      | (.ok x, w₁) => (.ok x, w₁)
      | (.error e, w₁) => (.error (cause e), w₁) := by
  unfold lift
  rw [run_bind]
  have hlift : (liftM a : ExceptT CompileCause (StateM σ) (Except ε α)).run.run w = (.ok (a.run w).1, (a.run w).2) := rfl
  rw [hlift]
  cases a.run w with
  | mk r w₁ => cases r <;> rfl

theorem run_lift_ok {cause : ε → CompileCause} {a : StateM σ (Except ε α)} {x : α}
    (h : (lift cause a).run.run w = (.ok x, w')) : a.run w = (.ok x, w') := by
  rw [run_lift] at h
  split at h
  · rename_i heq
    cases h
    exact heq
  · cases h

theorem run_ensuring (a : ExceptT CompileCause (StateM σ) α) (after : StateM σ Unit) (w : σ) :
    (ensuring a after).run.run w = ((a.run.run w).1, (after.run (a.run.run w).2).2) := rfl

theorem run_ensuring_ok {a : ExceptT CompileCause (StateM σ) α} {after : StateM σ Unit} {x : α}
    (h : (ensuring a after).run.run w = (.ok x, w')) :
    ∃ w₁, a.run.run w = (.ok x, w₁) ∧ w' = (after.run w₁).2 := by
  rw [run_ensuring] at h
  obtain ⟨hfirst, hsecond⟩ := Prod.mk.inj h
  exact ⟨_, Prod.ext hfirst rfl, hsecond.symm⟩

end Step

/-! ## The tool -/

/-- The world after some calls: nothing but the list of calls and the flag of cancellation need be other. -/
structure World.Called (w w' : World) (calls : List (List Bytes)) : Prop where
  environment : w'.environment = w.environment
  logging : w'.logging = w.logging
  calls : w'.calls = w.calls ++ calls

theorem World.Called.trans {w w' w'' : World} {cs cs' : List (List Bytes)} (h : w.Called w' cs)
    (h' : w'.Called w'' cs') : w.Called w'' (cs ++ cs') :=
  ⟨h'.environment.trans h.environment, h'.logging.trans h.logging, by
    rw [h'.calls, h.calls, List.append_assoc]⟩

theorem World.Idle.called {away : Place → Prop} {w w' : World} (h : w.Idle away w') : w.Called w' [] :=
  ⟨h.environment, h.logging, by rw [h.calls, List.append_nil]⟩

def Runner.tool? : Runner → Bytes → Option Tool
  | .direct tool, _ => some tool
  | .system programs, name => programs name

theorem Runner.tool?_of_lookup {programs : Bytes → Option Tool} {name : Bytes} {d : Disk} {tool : Tool}
    (h : Runner.lookup programs name d = .ok tool) : programs name = some tool := by
  unfold Runner.lookup at h
  split at h
  · cases h
  · split at h
    · split at h
      · rename_i hp
        cases h
        exact hp
      · split at h <;> cases h
    · split at h
      · rename_i hp
        cases h
        exact hp
      · cases h

theorem Action.run_bind {α β : Type} (x : Action α) (f : α → Action β) (w : World) :
    (x >>= f).run w = (f (x.run w).1).run (x.run w).2 := rfl

theorem Action.run_get (w : World) : (get : Action World).run w = (w, w) := rfl

theorem Action.run_look {α : Type} (f : Disk → α) (w : World) :
    (Action.look f).run w = (f w.disk, w) := rfl

theorem Action.run_perform (change : Disk → Except FileError Disk) (w : World) :
    (Action.perform change).run w = match change w.disk with
      | .ok d => (.ok (), { w with disk := d })
      | .error e => (.error e, w) := by
  show StateT.run (match change w.disk with
    | .ok d => (do set { w with disk := d }; return .ok () : Action (Except FileError Unit))
    | .error e => return .error e) w = _
  cases change w.disk <;> rfl

theorem Action.run_performWith {α : Type} (change : Disk → Except FileError (α × Disk)) (w : World) :
    (Action.performWith change).run w = match change w.disk with
      | .ok (a, d) => (.ok a, { w with disk := d })
      | .error e => (.error e, w) := by
  show StateT.run (match change w.disk with
    | .ok (a, d) => (do set { w with disk := d }; return .ok a : Action (Except FileError α))
    | .error e => return .error e) w = _
  cases change w.disk <;> rfl

namespace Runner

def sourceText (d : Disk) (args : List Bytes) : Bytes :=
  match d.contents (args.headD []) with
  | .ok content => content
  | .error _ => []

def carryOut (process : Bool) (response : Response) (name : Bytes) (args : List Bytes) : Action RunResult := do
  modify fun w => { w with calls := w.calls ++ [name :: args] }
  match response.bytecode, Invocation.argumentOf "-Fo" args with
  | some code, some path => do let _ ← Action.perform fun d => d.store path code
  | _, _ => pure ()
  if response.cancels then modify fun w => { w with cancelled := true }
  return {
    output := response.output
    failure := failureOf process response.ending
    interruption := interruptionOf (← get).cancelled response.ending }

theorem run_call (process : Bool) (tool : Tool) (name : Bytes) (args : List Bytes) (w : World) :
    (call process tool name args).run w =
      (carryOut process (tool ⟨args, sourceText w.disk args⟩) name args).run w := rfl

def written (d : Disk) (args : List Bytes) (response : Response) : Disk :=
  match response.bytecode, Invocation.argumentOf "-Fo" args with
  | some code, some path =>
    match d.store path code with
    | .ok d' => d'
    | .error _ => d
  | _, _ => d

theorem run_carryOut (process : Bool) (response : Response) (name : Bytes) (args : List Bytes) (w : World) :
    ∃ interruption, (carryOut process response name args).run w =
      (⟨response.output, failureOf process response.ending, interruption⟩,
        { w with
          disk := written w.disk args response
          calls := w.calls ++ [name :: args]
          cancelled := response.cancels || w.cancelled }) := by
  obtain ⟨bytecode, output, cancels, ending⟩ := response
  refine ⟨interruptionOf (cancels || w.cancelled) ending, ?_⟩
  unfold carryOut written
  cases bytecode with
  | none => cases cancels <;> rfl
  | some code =>
    cases Invocation.argumentOf "-Fo" args with
    | none => cases cancels <;> rfl
    | some path =>
      simp only [StateT.run_bind, StateT.run_modify, bind_pure_comp, pure_bind, Action.run_perform]
      cases hs : w.disk.store path code with
      | ok d => cases cancels <;> rfl
      | error e => cases cancels <;> rfl

theorem called_of_call {process : Bool} {tool : Tool} {name : Bytes} {args : List Bytes} {w w' : World}
    {result : RunResult} (h : (call process tool name args).run w = (result, w')) :
    w'.disk = written w.disk args (tool ⟨args, sourceText w.disk args⟩) ∧ w.Called w' [name :: args] := by
  obtain ⟨interruption, hrun⟩ := run_carryOut process (tool ⟨args, sourceText w.disk args⟩) name args w
  rw [run_call, hrun] at h
  cases h
  exact ⟨rfl, rfl, rfl, rfl⟩

end Runner

/-- The bytecode goes where the options of the call say, unless the path is refused. -/
theorem argumentOf_output (o : CompilerOptions) {profile entry : Bytes} {source output : Path}
    (hsource : source ≠ utf8 "-Fo") (hprofile : profile ≠ utf8 "-Fo") (hentry : entry ≠ utf8 "-Fo") :
    Invocation.argumentOf "-Fo" (o.arguments profile entry source output) = some output := by
  have hT : utf8 "-T" ≠ utf8 "-Fo" := by decide
  have hE : utf8 "-E" ≠ utf8 "-Fo" := by decide
  simp [CompilerOptions.arguments, Invocation.argumentOf, hsource, hprofile, hentry, hT, hE]

theorem Runner.run_eq_call {r : Runner} {name : Bytes} {args : List Bytes} {result : RunResult}
    {w w' : World} (h : (r.run name args).run w = (result, w')) (hok : result.failure = none) :
    ∃ process tool, r.tool? name = some tool ∧
      (Runner.call process tool name args).run w = (result, w') := by
  cases r with
  | direct tool => exact ⟨false, tool, rfl, h⟩
  | system programs =>
    rw [Runner.run, Action.run_bind, Action.run_get] at h
    dsimp only at h
    split at h
    · cases h
      cases hok
    · rename_i tool hlookup
      split at h
      · cases h
        cases hok
      · exact ⟨true, tool, tool?_of_lookup hlookup, h⟩

/-- A stage that is compiled has a profile, its call did not fail, and its output file is there afterwards. -/
theorem compileStage_eq_ok {o : CompilerOptions} {kind : StageKind} {entry : Bytes} {source output path : Path}
    {w w' : World} (h : (compileStage o kind entry source output).run w = (.ok path, w')) :
    path = output ∧ ∃ prof result w₁ n e, profile kind o.shaderModel = .ok prof ∧
      (o.runner.run o.tool (o.arguments prof entry source output)).run w = (result, w₁) ∧
      result.failure = none ∧ w₁.disk.stat output = .ok n ∧ w' = w₁.log e := by
  unfold compileStage at h
  split at h
  · cases h
  rename_i prof hprof
  rw [Action.run_bind] at h
  cases hrun : (o.runner.run o.tool (o.arguments prof entry source output)).run w with
  | mk result w₁ =>
    simp only [hrun] at h
    cases hfailure : result.failure with
    | some failure =>
      rw [hfailure] at h
      cases h
    | none =>
      rw [hfailure] at h
      cases hstat : w₁.disk.stat output with
      | error e =>
        simp only [Action.run_bind, Action.run_look, hstat] at h
        cases h
      | ok n =>
        simp only [Action.run_bind, Action.run_look, hstat] at h
        cases h
        exact ⟨rfl, prof, result, w₁, n, _, hprof, hrun, hfailure, hstat, rfl⟩

/-! ## The work directory during the calls -/

/-- The log file of the world has a path without the name. -/
def World.LogLacks (w : World) (name : Bytes) : Prop :=
  ∀ s file, w.logging = some s → s.file = some file → name ∉ Path.components file.path

theorem World.LogLacks.avoids {w : World} {name : Bytes} {own : Place → Option Node} (h : w.LogLacks name)
    (hname : Path.Plain name) (hd : w.disk.Holds name own) : w.LogAvoids (name ∈ ·) :=
  fun s file hs hfile _ hwithin => hd.avoids (hwithin.not_mem hname (h s file hs hfile))

theorem World.LogLacks.of_logging {w w' : World} {name : Bytes} (h : w.LogLacks name)
    (hlogging : w'.logging = w.logging) : w'.LogLacks name :=
  fun s file hs hfile => h s file (hlogging ▸ hs) hfile

/-- A work directory with the merged source for its only file, in a world that logs elsewhere. -/
structure Bench (t : WorkPath) (place : Place) (src text : Bytes) (w : World) : Prop where
  works : ∃ time, w.disk.Works t place (Function.update (fun _ => none) src (some (.file text time)))
  logs : w.LogLacks t.base

/-- The name of the file that the bytecode of a stage goes to. -/
def outputName (st : Stage) : Bytes := st.entryPoint ++ artifactExt

def CompilerOptions.stageArguments (o : CompilerOptions) (dir source : Path) (e : StageKind × Stage) :
    List Bytes :=
  o.arguments ((profile e.1 o.shaderModel).toOption.getD []) e.2.entryPoint source
    (Path.join dir (outputName e.2))

theorem stageArguments_eq {o : CompilerOptions} {e : StageKind × Stage} {prof : Bytes}
    (hprof : profile e.1 o.shaderModel = .ok prof) (dir source : Path) :
    o.stageArguments dir source e = o.arguments prof e.2.entryPoint source (Path.join dir (outputName e.2)) := by
  rw [CompilerOptions.stageArguments, hprof]
  rfl

/-- The stages one after another: none once work is cancelled, and none behind one that is not compiled. -/
theorem run_stagesBytecode_cons (o : CompilerOptions) (dir source : Path) (map : SourceMap) (e : StageKind × Stage)
    (l : List (StageKind × Stage)) (w : World) : (stagesBytecode o dir source map (e :: l)).run.run w =
      if w.cancelled then (.error .cancelled, w)
      else
        match (stageBytecode o e.1 e.2 source (Path.join dir (outputName e.2)) map).run.run w with
        | (.error cause, w₁) => (.error cause, w₁)
        | (.ok code, w₁) =>
          (((stagesBytecode o dir source map l).run.run w₁).1.map (code :: ·),
            ((stagesBytecode o dir source map l).run.run w₁).2) := by
  have hrest : ∀ code w₁, (stagesBytecode o dir source map l >>= fun codes =>
      (pure (code :: codes) : Step (List Bytes))).run.run w₁ =
        (((stagesBytecode o dir source map l).run.run w₁).1.map (code :: ·),
          ((stagesBytecode o dir source map l).run.run w₁).2) := by
    intro code w₁
    rw [Step.run_bind]
    rcases (stagesBytecode o dir source map l).run.run w₁ with ⟨cause | codes, w₂⟩ <;> rfl
  show StateT.run (ExceptT.run (if w.cancelled then _ else _)) w = _
  split
  · rfl
  · show (stageBytecode o e.1 e.2 source (Path.join dir (outputName e.2)) map >>= fun code =>
      stagesBytecode o dir source map l >>= fun codes => pure (code :: codes)).run.run w = _
    rw [Step.run_bind]
    rcases (stageBytecode o e.1 e.2 source (Path.join dir (outputName e.2)) map).run.run w with ⟨cause | code, w₁⟩
    · rfl
    · exact hrest code w₁

section Calls

variable {o : CompilerOptions} {t : WorkPath} {place : Place} {src text : Bytes} {w w' : World}
  {e : StageKind × Stage}

theorem plain_outputName (he : StageKind.ofEntryPoint? e.2.entryPoint = some e.1) :
    Path.Plain (outputName e.2) := by
  have hplain : ∀ entry ∈ [StageKind.vertexEntryPoint, StageKind.pixelEntryPoint],
      entry ++ artifactExt ≠ [] ∧ entry ++ artifactExt ≠ Path.dot ∧ entry ++ artifactExt ≠ Path.dotDot ∧
        Bytes.slash ∉ entry ++ artifactExt := by decide
  obtain ⟨h1, h2, h3, h4⟩ := hplain _ (StageKind.mem_of_ofEntryPoint? he)
  exact ⟨h1, h2, h3, h4⟩

theorem profile_of_ofEntryPoint? (he : StageKind.ofEntryPoint? e.2.entryPoint = some e.1) (model : Bytes) :
    ∃ b rest, b ≠ octet '-' ∧ profile e.1 model = .ok (b :: rest) := by
  rcases StageKind.eq_of_ofEntryPoint? he with ⟨hkind, -⟩ | ⟨hkind, -⟩
  · exact ⟨octet 'v', utf8 "s_" ++ model, by decide, by rw [hkind]; rfl⟩
  · exact ⟨octet 'p', utf8 "s_" ++ model, by decide, by rw [hkind]; rfl⟩

theorem argumentOf_stageArguments (he : StageKind.ofEntryPoint? e.2.entryPoint = some e.1)
    (hsrc : Path.Plain src) :
    Invocation.argumentOf "-Fo" (o.stageArguments t.dir (t.file src) e) = some (t.file (outputName e.2)) := by
  refine argumentOf_output o (t.file_ne hsrc (by decide)) ?_ ?_
  · obtain ⟨b, rest, hb, hprofile⟩ := profile_of_ofEntryPoint? he o.shaderModel
    rw [hprofile]
    intro hflag
    have hhead := congrArg List.head? hflag
    cases hhead
    exact hb rfl
  · rcases StageKind.eq_of_ofEntryPoint? he with ⟨-, hentry⟩ | ⟨-, hentry⟩
    · rw [hentry]
      decide
    · rw [hentry]
      decide

theorem sourceText_bench (hb : Bench t place src text w) (hsrc : Path.Plain src) (hreach : t.Reaches src) :
    Runner.sourceText w.disk (o.stageArguments t.dir (t.file src) e) = text := by
  obtain ⟨time, hworks⟩ := hb.works
  have hcontents := hworks.contents_file hsrc hreach (Function.update_self _ _ _)
  show (match w.disk.contents (t.file src) with
    | .ok content => content
    | .error _ => []) = text
  rw [hcontents]

theorem written_works {files : Bytes → Option Node} {d : Disk} {out : Bytes} {args : List Bytes}
    (h : d.Works t place files) (hout : Path.Plain out)
    (hflag : Invocation.argumentOf "-Fo" args = some (t.file out)) (response : Response) :
    Runner.written d args response = d ∨ ∃ code, response.bytecode = some code ∧ t.Reaches out ∧
      Runner.written d args response = d.putFile (place ++ [t.base] ++ [out]) code := by
  unfold Runner.written
  rw [hflag]
  cases hcode : response.bytecode with
  | none => exact .inl rfl
  | some code =>
    simp only
    cases hstore : d.store (t.file out) code with
    | error e => exact .inl rfl
    | ok d' =>
      have hr := h.reaches_of_store hout hstore
      rw [h.store_file hout hr] at hstore
      cases hstore
      exact .inr ⟨code, rfl, hr, rfl⟩

/-- What one call leaves: its bytecode in the output file, whatever path the log takes. -/
theorem compileStage_bench (hb : Bench t place src text w) (hsrc : Path.Plain src) (hreach : t.Reaches src)
    (he : StageKind.ofEntryPoint? e.2.entryPoint = some e.1) (hne : outputName e.2 ≠ src) {path : Path}
    (hrun : (compileStage o e.1 e.2.entryPoint (t.file src) (t.file (outputName e.2))).run w =
      (.ok path, w')) :
    path = t.file (outputName e.2) ∧ t.Reaches (outputName e.2) ∧ ∃ tool code time time',
      o.runner.tool? o.tool = some tool ∧
      (tool ⟨o.stageArguments t.dir (t.file src) e, text⟩).bytecode = some code ∧
      w'.disk.Works t place (Function.update
        (Function.update (fun _ => none) src (some (.file text time)))
        (outputName e.2) (some (.file code time'))) ∧
      w.Called w' [o.tool :: o.stageArguments t.dir (t.file src) e] := by
  obtain ⟨rfl, prof, result, w₁, n, entry, hprof, hcall, hok, hstat, rfl⟩ := compileStage_eq_ok hrun
  obtain ⟨time, hworks⟩ := hb.works
  have hargs : o.stageArguments t.dir (t.file src) e =
      o.arguments prof e.2.entryPoint (t.file src) (t.file (outputName e.2)) := stageArguments_eq hprof _ _
  have hplain := plain_outputName he
  have hflag := argumentOf_stageArguments (o := o) (t := t) he hsrc
  obtain ⟨process, tool, htool, hcall⟩ := Runner.run_eq_call hcall hok
  obtain ⟨hdisk, hcalled⟩ := Runner.called_of_call hcall
  rw [← hargs, sourceText_bench hb hsrc hreach] at hdisk
  rw [← hargs] at hcalled
  rcases written_works hworks hplain hflag (tool ⟨o.stageArguments t.dir (t.file src) e, text⟩) with
    hsame | ⟨code, hcode, hreachOut, hput⟩
  · -- without a write there is nothing to look at
    rw [hdisk, hsame] at hstat
    obtain ⟨-, hfile⟩ := hworks.file_of_stat hplain hstat
    rw [Function.update_of_ne hne] at hfile
    cases hfile
  · have hafter := hworks.putFile (outputName e.2) code
    rw [← hput, ← hdisk] at hafter
    have hlacks := hb.logs.of_logging hcalled.logging
    have hidle := World.idle_log (hlacks.avoids t.plain hafter.holds) entry
    refine ⟨rfl, hreachOut, tool, code, time, w.disk.clock, htool, hcode, hafter.of_quiet hidle.disk, ?_⟩
    have hboth := hcalled.trans hidle.called
    rwa [List.append_nil] at hboth

/-- The bytecode was written by the call for the stage. -/
def WrittenBy (o : CompilerOptions) (dir source : Path) (text : Bytes) (e : StageKind × Stage)
    (code : Bytes) : Prop :=
  ∃ tool, o.runner.tool? o.tool = some tool ∧
    (tool ⟨o.stageArguments dir source e, text⟩).bytecode = some code

theorem stageBytecode_bench (hb : Bench t place src text w) (hsrc : Path.Plain src) (hreach : t.Reaches src)
    (he : StageKind.ofEntryPoint? e.2.entryPoint = some e.1) (hne : outputName e.2 ≠ src) {map : SourceMap}
    {code : Bytes} (hrun : (stageBytecode o e.1 e.2 (t.file src) (t.file (outputName e.2)) map).run.run w =
      (.ok code, w')) :
    Bench t place src text w' ∧ w.Called w' [o.tool :: o.stageArguments t.dir (t.file src) e] ∧
      WrittenBy o t.dir (t.file src) text e code := by
  obtain ⟨path, w₁, hcompile, hrest⟩ := Step.run_bind_ok hrun
  obtain ⟨rfl, hreachOut, tool, bytes, time, time', htool, hbytes, hworks, hcalled⟩ :=
    compileStage_bench hb hsrc hreach he hne (Step.run_lift_ok hcompile)
  have hplain := plain_outputName he
  have hfile := Function.update_self (outputName e.2) (some (Node.file bytes time'))
    (Function.update (fun _ => none) src (some (Node.file text time)))
  have hlook : (Action.look fun d => d.contents (t.file (outputName e.2))).run w₁ = (.ok bytes, w₁) := by
    show (w₁.disk.contents (t.file (outputName e.2)), w₁) = _
    rw [hworks.contents_file hplain hreachOut hfile]
  have hremove : (Action.perform fun d => d.remove (t.file (outputName e.2))).run w₁ =
      (.ok (), { w₁ with disk := w₁.disk.erase (place ++ [t.base] ++ [outputName e.2]) }) := by
    rw [Action.run_perform, hworks.remove_file hplain hreachOut hfile]
  obtain ⟨w₂, hread, rfl⟩ := Step.run_ensuring_ok hrest
  rw [Step.run_lift, hlook] at hread
  cases hread
  rw [StateT.run_bind, hremove]
  refine ⟨⟨⟨time, ?_⟩, hb.logs.of_logging hcalled.logging⟩, ⟨hcalled.environment, hcalled.logging,
    hcalled.calls⟩, tool, htool, hbytes⟩
  -- the directory is as it was before the call
  have herase := hworks.erase (outputName e.2)
  rw [Function.update_idem, Function.update_eq_self_iff.2 (Function.update_of_ne hne _ _).symm] at herase
  exact herase

theorem stagesBytecode_bench {l : List (StageKind × Stage)} (hb : Bench t place src text w)
    (hsrc : Path.Plain src) (hreach : t.Reaches src)
    (hl : ∀ e ∈ l, StageKind.ofEntryPoint? e.2.entryPoint = some e.1 ∧ outputName e.2 ≠ src) {map : SourceMap}
    {codes : List Bytes} (hrun : (stagesBytecode o t.dir (t.file src) map l).run.run w = (.ok codes, w')) :
    Bench t place src text w' ∧
      w.Called w' (l.map fun e => o.tool :: o.stageArguments t.dir (t.file src) e) ∧
      List.Forall₂ (WrittenBy o t.dir (t.file src) text) l codes := by
  induction l generalizing w codes with
  | nil =>
    cases hrun
    exact ⟨hb, ⟨rfl, rfl, (List.append_nil _).symm⟩, .nil⟩
  | cons e l ih =>
    obtain ⟨he, hne⟩ := hl e List.mem_cons_self
    rw [stagesBytecode] at hrun
    obtain ⟨w₀, w₁, hget, hrun⟩ := Step.run_bind_ok hrun
    cases hget
    split at hrun
    · cases hrun
    obtain ⟨code, w₂, hcode, hrun⟩ := Step.run_bind_ok hrun
    obtain ⟨hb₂, hcalled, hwritten⟩ := stageBytecode_bench hb hsrc hreach he hne hcode
    obtain ⟨rest, w₃, hrest, hrun⟩ := Step.run_bind_ok hrun
    cases hrun
    obtain ⟨hb₃, hcalled', hall⟩ := ih hb₂ (fun e he => hl e (List.mem_cons_of_mem _ he)) hrest
    exact ⟨hb₃, hcalled.trans hcalled', .cons hwritten hall⟩

end Calls

/-! ## The work directory comes and goes -/

def PipelineOptions.workParent (o : PipelineOptions) (w : World) : Path :=
  if o.tempDir = [] then w.environment.tempDir else o.tempDir

def workPattern (name : Bytes) : Bytes := "shaderc-" ++ name.lower ++ "-"

def sourceName (name : Bytes) : Bytes := name.lower ++ shaderExt

/-- What the system promises of the name that a work directory gets: it stands nowhere else, at no place of the
tree, in no link, not in the working directory and not in the path of the log file. -/
def FreshName (o : PipelineOptions) (name : Bytes) (w : World) : Prop :=
  ∀ n, w.disk.Draws (o.workParent w) (workPattern name) n →
    w.disk.Unmentioned (Disk.freshName (workPattern name) n) ∧
      w.LogLacks (Disk.freshName (workPattern name) n)

theorem plain_append {front ext : Bytes} (hfront : Bytes.slash ∉ front) (hlen : 2 < ext.length)
    (hext : Bytes.slash ∉ ext) : Path.Plain (front ++ ext) := by
  have hlong : ∀ c : Bytes, c.length ≤ 2 → front ++ ext ≠ c := by
    rintro c hc rfl
    rw [List.length_append] at hc
    omega
  refine ⟨hlong _ (by decide), hlong _ (by decide), hlong _ (by decide), ?_⟩
  rw [List.mem_append, not_or]
  exact ⟨hfront, hext⟩

theorem plain_lower_append {name ext : Bytes} (h : Bytes.slash ∉ workPattern name) (hlen : 2 < ext.length)
    (hext : Bytes.slash ∉ ext) : Path.Plain (name.lower ++ ext) := by
  refine plain_append (fun hmem => h ?_) hlen hext
  simp [workPattern, hmem]

theorem plain_sourceName {name : Bytes} (h : Bytes.slash ∉ workPattern name) :
    Path.Plain (sourceName name) := plain_lower_append h (by decide) (by decide)

theorem outputName_ne_sourceName (st : Stage) (name : Bytes) : outputName st ≠ sourceName name := by
  intro heq
  have hlast := congrArg List.getLast? heq
  rw [outputName, sourceName, List.getLast?_append, List.getLast?_append,
    show artifactExt.getLast? = some (octet 'n') by decide,
    show shaderExt.getLast? = some (octet 'l') by decide, Option.some_or, Option.some_or] at hlast
  exact absurd hlast (by decide)

/-- A directory that was made under a fresh name is a bench once the source is stored in it. -/
theorem bench_of_store {t : WorkPath} {w : World} {place : Place} {src text : Bytes} {d : Disk}
    (hholds : w.disk.Holds t.base (Disk.fileTree (place ++ [t.base]) fun _ => none))
    (hlogs : w.LogLacks t.base) (hsrc : Path.Plain src) (hstore : w.disk.store (t.file src) text = .ok d) :
    Bench t place src text { w with disk := d } ∧ t.Reaches src := by
  have hworks := Disk.works_of_store hholds hsrc hstore
  have hreach := hworks.reaches_of_store hsrc hstore
  rw [hworks.store_file hsrc hreach] at hstore
  cases hstore
  exact ⟨⟨⟨_, hworks.putFile src text⟩, hlogs⟩, hreach⟩

/-- All stages of a source are compiled: in one work directory, from the merged source, each by a call of its
own. -/
theorem compileStages_ok {o : PipelineOptions} {compiler : CompilerOptions} {name : Bytes} {r : Recovered}
    {codes : List Bytes} {w w' : World} (hfresh : Bytes.slash ∉ workPattern name → FreshName o name w)
    (hstages : r.stages.Discovered)
    (hrun : (compileStages o compiler name r).run.run w = (.ok codes, w')) :
    ∃ dir, w.Called w' (r.stages.ordered.map fun e =>
        compiler.tool :: compiler.stageArguments dir (Path.join dir (sourceName name)) e) ∧
      List.Forall₂ (WrittenBy compiler dir (Path.join dir (sourceName name)) r.source)
        r.stages.ordered codes := by
  obtain ⟨_, w₁, hget, hrun⟩ := Step.run_bind_ok hrun
  cases hget
  obtain ⟨dir, w₁, hmake, hrun⟩ := Step.run_bind_ok hrun
  have hmake := Step.run_lift_ok hmake
  rw [Action.run_performWith] at hmake
  split at hmake
  · rename_i dir' d hmade
    cases hmake
    have hmade : w.disk.mkdirTemp (o.workParent w) (workPattern name) = .ok (dir, d) := hmade
    obtain ⟨hslash, n, hdraws, hdir, hmkdir⟩ := Disk.mkdirTemp_eq_ok hmade
    obtain ⟨t, ht, hbase⟩ := Disk.exists_workPath (o.workParent w) (Disk.plain_freshName hslash n)
    obtain rfl : dir = t.dir := hdir.trans ht.symm
    have hunmentioned : w.disk.Unmentioned t.base ∧ w.LogLacks t.base := by
      rw [hbase]
      exact hfresh hslash n hdraws
    -- the tool is given cleaned paths, which need not take the way that the directory was made by
    obtain ⟨place, hholds, -⟩ := Disk.holds_of_mkdir hunmentioned.1 hmkdir
    obtain ⟨w₃, hinner, rfl⟩ := Step.run_ensuring_ok hrun
    obtain ⟨_, w₂, hstored, hloop⟩ := Step.run_bind_ok hinner
    have hstored := Step.run_lift_ok hstored
    rw [Action.run_perform] at hstored
    split at hstored
    · rename_i d₂ hstore
      cases hstored
      have hplain := plain_sourceName hslash
      obtain ⟨hbench, hreach⟩ := bench_of_store (w := { w with disk := d }) hholds
        hunmentioned.2 hplain hstore
      obtain ⟨-, hcalled, hall⟩ := stagesBytecode_bench hbench hplain hreach (fun e he =>
        ⟨hstages.kinds_ordered e he, outputName_ne_sourceName e.2 name⟩) hloop
      exact ⟨t.dir, ⟨hcalled.environment, hcalled.logging, hcalled.calls⟩, hall⟩
    · cases hstored
  · cases hmake

end ShaderForge
