import Mathlib
import ShaderForge.Proofs.Files.LinkFree
import ShaderForge.Proofs.Pipeline.Outcome

/-!
# ShaderForge.Proofs.Pipeline.StageContract

What stands at the output path once a stage was compiled, or was not.

* `Runner.Delivers`, `Runner.find_written` — what a call writes, and what a path shows afterwards.
* `compileStage_cases` — the ways in which compiling a stage ends.
* `StageOutcome`       — with each of them, what the output path shows.
* `compileStage_contract` — every run has such an outcome. Bytecode is fresh, and an error leaves no file, if there was
  none before.
* `compileStage_stale` — a file that was there before is taken for bytecode, or left.
-/

namespace ShaderForge

namespace Runner

variable {d : Disk} {args : List Bytes} {response : Response} {P : Place}

/-! ## Calls -/

/-- The call writes this bytecode at this place. -/
structure Delivers (d : Disk) (args : List Bytes) (response : Response) (P : Place) (code : Bytes) : Prop where
  bytecode : response.bytecode = some code
  stored : ∃ path f, Invocation.argumentOf "-Fo" args = some path ∧ d.find true path = .ok f ∧ f.place = P ∧
    d.store path code = .ok (written d args response)

theorem written_cases (d : Disk) (args : List Bytes) (response : Response) :
    written d args response = d ∨ ∃ P code, Delivers d args response P code := by
  cases hcode : response.bytecode with
  | none => exact .inl (by rw [written, hcode])
  | some code =>
    cases hpath : Invocation.argumentOf "-Fo" args with
    | none => exact .inl (by rw [written, hcode, hpath])
    | some path =>
      cases hstored : d.store path code with
      | error e => exact .inl (by rw [written, hcode, hpath]; dsimp only; rw [hstored])
      | ok d' =>
        obtain ⟨f, hf, -⟩ := Disk.store_eq_ok hstored
        refine .inr ⟨f.place, code, hcode, path, f, hpath, hf, rfl, ?_⟩
        rw [written, hcode, hpath]
        dsimp only
        rw [hstored]

/-- What a path leads to after a call was written by the call, or was there before. -/
theorem find_written {p : Path} {n : Node} (h : (written d args response).find true p = .ok (.node P n)) :
    (∃ code time, Delivers d args response P code ∧ n = .file code time) ∨
      (∀ code, ¬ Delivers d args response P code) ∧ d.find true p = .ok (.node P n) := by
  by_cases hdelivers : ∃ code, Delivers d args response P code
  · obtain ⟨code, hcode⟩ := hdelivers
    obtain ⟨path, f, -, hf, rfl, hstored⟩ := hcode.stored
    refine .inl ⟨code, d.clock, hcode, ?_⟩
    have hself : (written d args response).node? f.place = some (.file code d.clock) :=
      Disk.node?_of_find (Disk.find_of_store hstored hf)
    have hnode : (written d args response).node? f.place = some n := Disk.node?_of_find h
    rw [hself] at hnode
    exact (Option.some.inj hnode).symm
  · refine .inr ⟨fun code hcode => hdelivers ⟨code, hcode⟩, ?_⟩
    rcases written_cases d args response with hsame | ⟨Q, code, hcode⟩
    · rwa [hsame] at h
    · obtain ⟨path, f, -, hf, rfl, hstored⟩ := hcode.stored
      refine Disk.find_of_find_store hstored hf h fun heq => hdelivers ⟨code, ?_⟩
      exact (show P = f.place from heq) ▸ hcode

end Runner

/-- Nothing or a file stands at the path. -/
def Disk.Ready (d : Disk) (p : Path) : Prop :=
  ∀ P n, d.find true p = .ok (.node P n) → ∃ content time, n = .file content time

theorem Disk.Ready.written {d : Disk} {p : Path} (h : d.Ready p) (args : List Bytes) (response : Response) :
    (Runner.written d args response).Ready p := by
  intro P n hn
  rcases Runner.find_written hn with ⟨code, time, -, rfl⟩ | ⟨-, hbefore⟩
  · exact ⟨code, time, rfl⟩
  · exact h P n hbefore

theorem Disk.Ready.not_directory {d : Disk} {p : Path} (h : d.Ready p) (q : Place) :
    d.find false p ≠ .ok (.node q .directory) := by
  intro hq
  obtain ⟨_, _, heq⟩ := h q _ (Disk.find_follow hq)
  cases heq

/-! ## Compiling a stage -/

namespace World

/-- The world once a path was removed, if it can be. -/
def cleared (w : World) (p : Path) : World := ((Action.perform fun d => d.remove p).run w).2

theorem absent_cleared {w : World} {p : Path} (h : w.disk.Ready p) : (w.cleared p).disk.isPresent p = false := by
  rw [cleared, Action.run_perform]
  cases hremove : w.disk.remove p with
  | ok d => exact Disk.absent_of_remove h.not_directory hremove
  | error e => exact Disk.absent_of_remove_error h.not_directory hremove

/-- No entry in the log changes what the path leads to. -/
def Spares (w : World) (p : Path) : Prop := ∀ e, (w.log e).disk.find true p = w.disk.find true p

theorem logging_cleared (w : World) (p : Path) : (w.cleared p).logging = w.logging := by
  rw [cleared, Action.run_perform]
  split <;> rfl

end World

section Stage

variable (o : CompilerOptions) (kind : StageKind) (entry : Bytes) (source output : Path) (w : World)

def CompilerOptions.called (prof : Bytes) : World :=
  ((o.runner.run o.tool (o.arguments prof entry source output)).run w).2

/-- A stage has no profile; or the call failed, and the output path was cleared; or it left nothing there; or something
is there. -/
theorem compileStage_cases :
    (∃ fault, profile kind o.shaderModel = .error fault ∧
      (compileStage o kind entry source output).run w = (.error (.target fault), w)) ∨
    ∃ prof, profile kind o.shaderModel = .ok prof ∧
      ((∃ error e, (compileStage o kind entry source output).run w =
          (.error (.tool error), ((o.called entry source output w prof).cleared output).log e)) ∨
        (∃ error, (o.called entry source output w prof).disk.isPresent output = false ∧
          (compileStage o kind entry source output).run w =
            (.error (.tool error), o.called entry source output w prof)) ∨
        ∃ e, (o.called entry source output w prof).disk.isPresent output = true ∧
          ((o.runner.run o.tool (o.arguments prof entry source output)).run w).1.failure = none ∧
          (compileStage o kind entry source output).run w = (.ok output, (o.called entry source output w prof).log e)) := by
  unfold compileStage CompilerOptions.called
  cases hprof : profile kind o.shaderModel with
  | error fault => exact .inl ⟨fault, rfl, rfl⟩
  | ok prof =>
    refine .inr ⟨prof, rfl, ?_⟩
    dsimp only
    rw [Action.run_bind]
    generalize (o.runner.run o.tool (o.arguments prof entry source output)).run w = ran
    obtain ⟨result, w₁⟩ := ran
    dsimp only
    cases hfailure : result.failure with
    | some failure => exact .inl ⟨_, _, rfl⟩
    | none =>
      refine .inr ?_
      dsimp only
      rw [Action.run_bind, Action.run_look]
      cases hstat : w₁.disk.stat output with
      | error e => exact .inl ⟨_, by rw [Disk.isPresent, hstat], rfl⟩
      | ok n => exact .inr ⟨_, by rw [Disk.isPresent, hstat], rfl, rfl⟩

end Stage

theorem ready_called {o : CompilerOptions} {entry prof : Bytes} {source output : Path} {w : World}
    (h : w.disk.Ready output) : (o.called entry source output w prof).disk.Ready output :=
  Runner.keeps_run (I := fun w => w.disk.Ready output) (fun _ _ _ hw => hw.written _ _) w h

theorem spares_called {o : CompilerOptions} {entry prof : Bytes} {source output : Path} {w : World} (h : w.Unlogged) :
    (o.called entry source output w prof).Spares output ∧
      ((o.called entry source output w prof).cleared output).Spares output := by
  have hunlogged : (o.called entry source output w prof).Unlogged :=
    Runner.keeps_run (I := World.Unlogged) (fun _ _ _ hw => hw) w h
  have hcleared : ((o.called entry source output w prof).cleared output).Unlogged := by
    intro s hs
    rw [World.logging_cleared] at hs
    exact hunlogged s hs
  exact ⟨fun e => by rw [hunlogged.disk_log], fun e => by rw [hcleared.disk_log]⟩

/-- The call for a stage writes this bytecode at this place. -/
def CompilerOptions.Delivers (o : CompilerOptions) (kind : StageKind) (entry : Bytes) (source output : Path) (w : World)
    (P : Place) (code : Bytes) : Prop :=
  ∃ prof tool, profile kind o.shaderModel = .ok prof ∧ o.runner.tool? o.tool = some tool ∧
    let args := o.arguments prof entry source output
    Runner.Delivers w.disk args (tool ⟨args, Runner.sourceText w.disk args⟩) P code

/-- What stands at the output path, by what came of the stage. -/
inductive StageOutcome (o : CompilerOptions) (kind : StageKind) (entry : Bytes) (source output : Path) (w w' : World) :
    Except StageError Path → Prop
  /-- Without a profile nothing is done, so whatever stood there stands there. -/
  | unsupported {fault : TargetFault} (hprof : profile kind o.shaderModel = .error fault) (hsame : w' = w) :
      StageOutcome o kind entry source output w w' (.error (.target fault))
  /-- After a failure of the tool nothing is there. -/
  | failed {error : ToolError} (habsent : w'.disk.isPresent output = false) :
      StageOutcome o kind entry source output w w' (.error (.tool error))
  /-- The call wrote what is there. -/
  | fresh {P : Place} {code : Bytes} {time : Int} (hdelivers : o.Delivers kind entry source output w P code)
      (hfound : w'.disk.find true output = .ok (.node P (.file code time))) :
      StageOutcome o kind entry source output w w' (.ok output)
  /-- The call wrote nothing there, and what is there was there before. -/
  | stale {P : Place} {content : Bytes} {time : Int} (hidle : ∀ code, ¬ o.Delivers kind entry source output w P code)
      (hbefore : w.disk.find true output = .ok (.node P (.file content time)))
      (hfound : w'.disk.find true output = .ok (.node P (.file content time))) :
      StageOutcome o kind entry source output w w' (.ok output)

/-- With success, the output path is given and leads to what the call wrote; with an error, nothing is there. -/
structure StageContract (o : CompilerOptions) (kind : StageKind) (entry : Bytes) (source output : Path) (w w' : World)
    (r : Except StageError Path) : Prop where
  fresh : ∀ p, r = .ok p → p = output ∧ ∃ P code time, o.Delivers kind entry source output w P code ∧
    w'.disk.find true output = .ok (.node P (.file code time))
  absent : ∀ e, r = .error e → w'.disk.isPresent output = false

theorem StageOutcome.contract {o : CompilerOptions} {kind : StageKind} {entry : Bytes} {source output : Path}
    {w w' : World} {r : Except StageError Path} (h : StageOutcome o kind entry source output w w' r)
    (habsent : w.disk.isPresent output = false) : StageContract o kind entry source output w w' r := by
  cases h with
  | unsupported _ hsame =>
    subst hsame
    exact ⟨by simp, fun _ _ => habsent⟩
  | failed hgone => exact ⟨by simp, fun _ _ => hgone⟩
  | fresh hdelivers hfound =>
    refine ⟨fun p hp => ?_, by simp⟩
    cases hp
    exact ⟨rfl, _, _, _, hdelivers, hfound⟩
  | stale _ hbefore _ =>
    rw [Disk.isPresent_iff.2 ⟨_, _, hbefore⟩] at habsent
    cases habsent

section Stage

variable {o : CompilerOptions} {kind : StageKind} {entry : Bytes} {source output : Path} {w : World}

/-- What stands at the output path after a call that went well was written by it, or stood there before. -/
theorem outcome_called {prof : Bytes} (hprof : profile kind o.shaderModel = .ok prof) (hready : w.disk.Ready output)
    (hfailure : ((o.runner.run o.tool (o.arguments prof entry source output)).run w).1.failure = none)
    (hpresent : (o.called entry source output w prof).disk.isPresent output = true) {w' : World}
    (hsame : w'.disk.find true output = (o.called entry source output w prof).disk.find true output) :
    StageOutcome o kind entry source output w w' (.ok output) := by
  unfold CompilerOptions.called at hpresent hsame
  generalize hrun : (o.runner.run o.tool (o.arguments prof entry source output)).run w = ran at hfailure hpresent hsame
  obtain ⟨process, tool, htool, hcall⟩ := Runner.run_eq_call hrun hfailure
  obtain ⟨hdisk, -⟩ := Runner.called_of_call hcall
  obtain ⟨P, n, hfound⟩ := Disk.isPresent_iff.1 hpresent
  rw [hfound] at hsame
  rw [hdisk] at hfound
  rcases Runner.find_written hfound with ⟨code, time, hdelivers, rfl⟩ | ⟨hidle, hbefore⟩
  · exact .fresh ⟨prof, tool, hprof, htool, hdelivers⟩ hsame
  · obtain ⟨content, time, rfl⟩ := hready P n hbefore
    refine .stale (fun code hcode => ?_) hbefore hsame
    obtain ⟨prof', tool', hprof', htool', hdelivers⟩ := hcode
    rw [hprof] at hprof'
    cases hprof'
    rw [htool] at htool'
    cases htool'
    exact hidle code hdelivers

end Stage

/-- A stage is compiled to a path where nothing or a file stands, and what is logged does not change where it leads. If
this ends well, the file was written by the call, or is the one from before and the call wrote nothing there. If the
tool fails, no file is left; if there is no tool for the stage, the file from before is. So with no file there before,
success means fresh bytecode and an error means no file. -/
theorem compileStage_contract (o : CompilerOptions) (kind : StageKind) (entry : Bytes) (source output : Path) (w : World)
    (hready : w.disk.Ready output)
    (hlog : ∀ prof, profile kind o.shaderModel = .ok prof → (o.called entry source output w prof).Spares output ∧
      ((o.called entry source output w prof).cleared output).Spares output) :
    let run := (compileStage o kind entry source output).run w
    StageOutcome o kind entry source output w run.2 run.1 ∧
      (w.disk.isPresent output = false → StageContract o kind entry source output w run.2 run.1) := by
  intro run
  have houtcome : StageOutcome o kind entry source output w run.2 run.1 := by
    rcases compileStage_cases o kind entry source output w with
      ⟨fault, hprof, hrun⟩ | ⟨prof, hprof, ⟨error, e, hrun⟩ | ⟨error, habsent, hrun⟩ | ⟨e, hpresent, hfailure, hrun⟩⟩
    · simp only [run, hrun]
      exact .unsupported hprof rfl
    · simp only [run, hrun]
      refine .failed ?_
      rw [Disk.isPresent_congr ((hlog prof hprof).2 e)]
      exact World.absent_cleared (ready_called hready)
    · simp only [run, hrun]
      exact .failed habsent
    · simp only [run, hrun]
      exact outcome_called hprof hready hfailure hpresent ((hlog prof hprof).1 e)
  exact ⟨houtcome, houtcome.contract⟩

/-- A tree that holds one file, left over from before. -/
def leftoverWorld : World := { disk := { nodes := [([utf8 "o.bin"], .file (utf8 "left over") 0)] } }

/-- A tool that writes bytecode and ends so. -/
def endingOptions (ending : Ending) : CompilerOptions := { runner := .direct fun _ => { bytecode := some [7], ending } }

/-- Bytecode that is written before the tool fails is taken away with what was there; without failure it is found. -/
theorem compileStage_contract_overwritten :
    let failed := (compileStage (endingOptions (.exit 3)) .vertex "vs_main" "/s.hlsl" "/o.bin").run leftoverWorld
    let made := (compileStage (endingOptions .success) .vertex "vs_main" "/s.hlsl" "/o.bin").run {}
    ((∃ e, failed.1 = .error e) ∧ failed.2.disk.isPresent "/o.bin" = false) ∧ made.1 = .ok (utf8 "/o.bin") ∧
      StageContract (endingOptions .success) .vertex "vs_main" "/s.hlsl" "/o.bin" {} made.2 made.1 := by
  have hfailed : ((compileStage (endingOptions (.exit 3)) .vertex "vs_main" "/s.hlsl" "/o.bin").run
    leftoverWorld).1.toOption = none := by cbv
  have hmade : ((compileStage (endingOptions .success) .vertex "vs_main" "/s.hlsl" "/o.bin").run
    {}).1 = .ok (utf8 "/o.bin") := by cbv
  have hfound : leftoverWorld.disk.find true "/o.bin" = .ok (.node [utf8 "o.bin"] (.file (utf8 "left over") 0)) := by cbv
  have hvacant : ({} : World).disk.find true "/o.bin" = .ok (.vacant [utf8 "o.bin"] false) := by cbv
  have hunlogged : leftoverWorld.Unlogged := fun s hs => by cases hs
  have hunlogged' : ({} : World).Unlogged := fun s hs => by cases hs
  obtain ⟨houtcome, -⟩ := compileStage_contract (endingOptions (.exit 3)) .vertex "vs_main" "/s.hlsl" "/o.bin" leftoverWorld
    (fun P n hn => by rw [hfound] at hn; cases hn; exact ⟨_, _, rfl⟩)
    (fun prof _ => spares_called hunlogged)
  obtain ⟨-, hcontract⟩ := compileStage_contract (endingOptions .success) .vertex "vs_main" "/s.hlsl" "/o.bin" {}
    (fun P n hn => by rw [hvacant] at hn; cases hn)
    (fun prof _ => spares_called hunlogged')
  intro failed made
  have habsent : ∀ (r : Except StageError Path) (w' : World),
      StageOutcome (endingOptions (.exit 3)) .vertex "vs_main" "/s.hlsl" "/o.bin" leftoverWorld w' r →
      r.toOption = none → (∃ e, r = .error e) ∧ w'.disk.isPresent "/o.bin" = false := by
    intro r w' h hr
    cases h with
    | unsupported hprof => cases hprof
    | failed hgone => exact ⟨⟨_, rfl⟩, hgone⟩
    | fresh | stale => cases hr
  refine ⟨habsent _ _ houtcome hfailed, hmade, hcontract (Bool.eq_false_iff.2 fun hpresent => ?_)⟩
  obtain ⟨P, n, hn⟩ := Disk.isPresent_iff.1 hpresent
  rw [hvacant] at hn
  cases hn

/-- A file that was there before is taken for bytecode if the tool writes nothing, and is left if there is no tool for
the stage. -/
theorem compileStage_stale :
    let idle : CompilerOptions := { runner := .direct fun _ => {} }
    let taken := (compileStage idle .vertex "vs_main" "/s.hlsl" "/o.bin").run leftoverWorld
    let left := (compileStage idle ⟨9⟩ "cs_main" "/s.hlsl" "/o.bin").run leftoverWorld
    (taken.1 = .ok (utf8 "/o.bin") ∧ taken.2.disk.contents "/o.bin" = .ok (utf8 "left over") ∧
      ∀ P code, ¬ idle.Delivers .vertex "vs_main" "/s.hlsl" "/o.bin" leftoverWorld P code) ∧
    (∃ e, left.1 = .error e) ∧ left.2.disk.contents "/o.bin" = .ok (utf8 "left over") := by
  intro idle taken left
  have hidle : ∀ P code, ¬ idle.Delivers .vertex "vs_main" "/s.hlsl" "/o.bin" leftoverWorld P code := by
    rintro P code ⟨prof, tool, -, htool, hdelivers⟩
    cases htool
    cases hdelivers.bytecode
  have hleft : left = (.error (.target (.unsupportedStage ⟨9⟩)), leftoverWorld) := rfl
  have hcontents : leftoverWorld.disk.contents "/o.bin" = .ok (utf8 "left over") := by cbv
  refine ⟨⟨?_, ?_, hidle⟩, ⟨_, congrArg Prod.fst hleft⟩, by rw [hleft]; exact hcontents⟩
  · show ((compileStage { runner := .direct fun _ => {} } .vertex "vs_main" "/s.hlsl" "/o.bin").run leftoverWorld).1 = _
    cbv
  · show ((compileStage { runner := .direct fun _ => {} } .vertex "vs_main" "/s.hlsl" "/o.bin").run
      leftoverWorld).2.disk.contents "/o.bin" = _
    cbv

end ShaderForge
