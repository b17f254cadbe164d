import Mathlib
import ShaderForge.Proofs.Pipeline.Stages

/-!
# ShaderForge.Proofs.Pipeline.EndToEnd

From a source file to an artifact and back.

* `EncodeCourse`    — the courses that encoding can take.
* `FreshName.of_idle` — parsing leaves the name of the work directory fresh.
* `Faithful`        — an artifact that holds what a source declares, with the bytecode of each stage.
* `EncodeFailure`   — the ways in which no artifact comes about.
* `encodeShader_faithful` — every artifact is faithful, and after the stages only its size can fail.
-/

namespace ShaderForge

/-- The world in which the stages are compiled: the parse has been logged. -/
def World.parsed (o : PipelineOptions) (name : Bytes) (r : Recovered) (w : World) : World :=
  w.log ⟨.debug, o.logger, "shader parsed",
    [.text "shader" name, .text "backend" Backend.directX12.label, .nat "stages" r.stages.size,
      .nat "exports" r.exports.size, .nat "files" r.map.files.length]⟩

theorem Step.run_require {ε α : Type} (cause : ε → CompileCause) (r : Except ε α) (w : World) :
    (Step.require cause r : Step α).run.run w = match r with
      | .ok x => (.ok x, w)
      | .error e => (.error (cause e), w) := by
  cases r <;> rfl

theorem Step.run_log (level : Level) (logger message : Bytes) (fields : List LogField) (w : World) :
    (liftM (Action.log level logger message fields) : Step Unit).run.run w =
      (.ok (), w.log ⟨level, logger, message, fields⟩) := rfl

theorem run_forShader {α : Type} (name : Bytes) (x : Step α) (w : World) : (forShader name x).run w =
    match x.run.run w with
    | (.ok a, w') => (.ok a, w')
    | (.error cause, w') => (.error ⟨name, cause⟩, w') := by
  unfold forShader
  rw [StateT.run_bind]
  generalize x.run = x
  cases x.run w with
  | mk result w' => cases result <;> rfl

theorem run_encodeShader (o : PipelineOptions) (name : Bytes) (source : Path) (backend : Backend)
    (w : World) : (encodeShader o name source backend).run w =
      match (encodeSteps o name source backend).run.run w with
      | (.ok data, w') => (.ok data, w')
      | (.error cause, w') => (.error ⟨name, cause⟩, w') := by
  rw [encodeShader, run_forShader]
  rcases (encodeSteps o name source backend).run.run w with ⟨_ | _, _⟩ <;> rfl

/-- A request is prepared if its name and its backend will do and its source can be parsed. -/
theorem prepare_eq (name : Bytes) (backend : Backend) (parsed : Action (Except ParseError Recovered)) (w : World) :
    (prepare name backend parsed).run.run w =
      match checkName name with
      | .error fault => (.error (.name fault), w)
      | .ok _ =>
        if backend = .directX12 then
          match parsed.run w with
          | (.error e, w') => (.error (.parse e), w')
          | (.ok r, w') => (.ok (.dxil, r), w')
        else (.error (.target (.noCompiler backend)), w) := by
  unfold prepare
  simp only [Step.run_bind, Step.run_require, Step.run_lift]
  cases checkName name with
  | error fault => rfl
  | ok _ =>
    dsimp only
    by_cases hbackend : backend = .directX12
    · have hsupported : Backend.directX12.require = .ok () := rfl
      have hdialect : Backend.directX12.dialect = .ok .dxil := rfl
      rw [hbackend, if_pos rfl, hsupported, hdialect]
      dsimp only
      rcases parsed.run w with ⟨e | r, w'⟩ <;> rfl
    · have hrefused : backend.require = .error (.noCompiler backend) := if_neg hbackend
      rw [if_neg hbackend, hrefused]

/-- The courses that encoding can take from a world. -/
inductive EncodeCourse (o : PipelineOptions) (name : Bytes) (source : Path) (w : World) :
    Except CompileError Bytes → World → Prop
  | misnamed {fault : NameFault} (hname : checkName name = .error fault) :
      EncodeCourse o name source w (.error ⟨name, .name fault⟩) w
  | unparsed {e : ParseError} {w₁ : World} (hparse : (parseFile o.parser source).run w = (.error e, w₁)) :
      EncodeCourse o name source w (.error ⟨name, .parse e⟩) w₁
  | uncompiled {r : Recovered} {w₁ w₂ : World} {cause : CompileCause}
      (hparse : (parseFile o.parser source).run w = (.ok r, w₁))
      (hcompile : (compileStages o o.compiler.withDefaults name r).run.run (w₁.parsed o name r) =
        (.error cause, w₂)) :
      EncodeCourse o name source w (.error ⟨name, cause⟩) w₂
  | unframed {r : Recovered} {w₁ w₂ : World} {bytecode : List Bytes} {e : Artifact.EncodeError}
      (hparse : (parseFile o.parser source).run w = (.ok r, w₁))
      (hcompile : (compileStages o o.compiler.withDefaults name r).run.run (w₁.parsed o name r) =
        (.ok bytecode, w₂))
      (hencode : Artifact.encode .dxil
        (some { r.metadata name with stages := some r.stages.renumbered }) bytecode = .error e) :
      EncodeCourse o name source w (.error ⟨name, .artifact e⟩) w₂
  | encoded {r : Recovered} {w₁ w₂ : World} {bytecode : List Bytes} {data : Bytes} {entry : LogEntry}
      (hparse : (parseFile o.parser source).run w = (.ok r, w₁))
      (hcompile : (compileStages o o.compiler.withDefaults name r).run.run (w₁.parsed o name r) =
        (.ok bytecode, w₂))
      (hencode : Artifact.encode .dxil
        (some { r.metadata name with stages := some r.stages.renumbered }) bytecode = .ok data) :
      EncodeCourse o name source w (.ok data) (w₂.log entry)

theorem encodeCourse_of_run {o : PipelineOptions} {name : Bytes} {source : Path} {w w' : World}
    {result : Except CompileError Bytes}
    (hrun : (encodeShader o name source .directX12).run w = (result, w')) :
    EncodeCourse o name source w result w' := by
  have hsupported : Backend.directX12.require = .ok () := rfl
  have hdialect : Backend.directX12.dialect = .ok .dxil := rfl
  rw [run_encodeShader, encodeSteps, prepare] at hrun
  simp only [assemble, Step.run_bind, Step.run_require, Step.run_lift, Step.run_log, Step.run_pure, hsupported,
    hdialect] at hrun
  cases hname : checkName name with
  | error fault =>
    rw [hname] at hrun
    cases hrun
    exact .misnamed hname
  | ok _ =>
  simp only [hname] at hrun
  rcases hparse : (parseFile o.parser source).run w with ⟨_ | r, w₁⟩
  · rw [hparse] at hrun
    cases hrun
    exact .unparsed hparse
  have hparsed : w₁.log ⟨.debug, o.logger, "shader parsed",
      [.text "shader" name, .text "backend" Backend.directX12.label] ++
        [.nat "stages" r.stages.size, .nat "exports" r.exports.size,
          .nat "files" r.map.files.length]⟩ = w₁.parsed o name r := rfl
  simp only [hparse, hparsed] at hrun
  rcases hcompile : (compileStages o o.compiler.withDefaults name r).run.run (w₁.parsed o name r)
    with ⟨_ | bytecode, w₂⟩
  · rw [hcompile] at hrun
    cases hrun
    exact .uncompiled hparse hcompile
  simp only [hcompile] at hrun
  cases hencode : Artifact.encode .dxil
      (some { r.metadata name with stages := some r.stages.renumbered }) bytecode with
  | error e =>
    rw [hencode] at hrun
    cases hrun
    exact .unframed hparse hcompile hencode
  | ok data =>
    rw [hencode] at hrun
    cases hrun
    exact .encoded hparse hcompile hencode

/-! ## Names of work directories -/

theorem FreshName.draws_of_idle {o : PipelineOptions} {name : Bytes} {w w' : World} {n : Nat}
    (h : FreshName o name w) (hslash : Bytes.slash ∉ workPattern name)
    (hidle : ∀ away, w.LogAvoids away → w.Idle away w')
    (hdraws : w'.disk.Draws (o.workParent w) (workPattern name) n) :
    w.disk.Draws (o.workParent w) (workPattern name) n := by
  refine ⟨hdraws.numeral, fun htaken => ?_, fun m => ?_⟩
  · exact hdraws.free (htaken.of_quiet (hidle _ w.logAvoids_nowhere).disk)
  · induction m using Nat.strong_induction_on with
    | h m ih =>
      intro hm hlt
      by_contra hfree
      -- the least name that was free would be drawn, and so it would be free still
      obtain ⟨hunmentioned, hlog⟩ := h m ⟨hm, hfree, fun k hk hkm => ih k hkm hk (hkm.trans hlt)⟩
      have hplain := Disk.plain_freshName hslash m
      have hquiet := (hidle _ (hlog.avoids hplain hunmentioned)).disk
      exact (hunmentioned.of_quiet hquiet).not_taken hplain _ (hdraws.taken m hm hlt)

theorem FreshName.of_idle {o : PipelineOptions} {name : Bytes} {w w' : World} (h : FreshName o name w)
    (hslash : Bytes.slash ∉ workPattern name) (hidle : ∀ away, w.LogAvoids away → w.Idle away w') :
    FreshName o name w' := by
  have hnowhere := hidle _ w.logAvoids_nowhere
  have hparent : o.workParent w' = o.workParent w := by
    rw [PipelineOptions.workParent, PipelineOptions.workParent, hnowhere.environment]
  intro n hdraws
  rw [hparent] at hdraws
  obtain ⟨hunmentioned, hlog⟩ := h n (h.draws_of_idle hslash hidle hdraws)
  have hquiet := (hidle _ (hlog.avoids (Disk.plain_freshName hslash n) hunmentioned)).disk
  exact ⟨hunmentioned.of_quiet hquiet, hlog.of_logging hnowhere.logging⟩

/-! ## What the artifact holds -/

/-- The artifact holds what the source declares, with the bytecode that the tool wrote for each stage. -/
structure Faithful (o : CompilerOptions) (name : Bytes) (r : Recovered) (dir : Path) (f : Artifact.File) :
    Prop where
  dialect : f.dialect = .dxil
  shaderName : f.metadata.shaderName = name
  stages : f.metadata.stages = some r.stages.normal
  exports : f.metadata.exports = some r.exports.normal
  buffers : r.stages.renumbered = r.stages
  binaries : (Artifact.binaries f.chunks).length = r.stages.size
  bytecode : ∀ e ∈ r.stages.toList, ∃ code, f.stageBytecode? e.1 = some code ∧
    WrittenBy o dir (Path.join dir (sourceName name)) r.source e code

section Encoding

variable {o : PipelineOptions} {name : Bytes} {source : Path} {w w' : World} {r : Recovered}

/-- The bytecode of a stage stands at the place that the order of the stages gives it. -/
theorem stageBytecode?_ordered {f : Artifact.File} (hstages : r.stages.Discovered)
    (htable : f.metadata.stages = some r.stages.normal) (hlen : r.stages.ordered.length = f.bytecode.length) :
    List.Forall₂ (fun e code => f.stageBytecode? e.1 = some code) r.stages.ordered f.bytecode := by
  refine List.forall₂_iff_get.2 ⟨hlen, fun i hlt hlt' => ?_⟩
  have hmem := (sortBy_perm _).mem_iff.1 (r.stages.ordered.get_mem ⟨i, hlt⟩)
  have hbuffer := hstages.buffer_of_getElem? (List.getElem?_eq_getElem hlt)
  have hentry : f.metadata.stageTable.get? r.stages.ordered[i].1 = some r.stages.ordered[i].2.normal := by
    rw [Metadata.stageTable, htable, Option.getD_some]
    exact Dict.get?_eq_some_iff.2 (List.mem_map.2 ⟨_, hmem, rfl⟩)
  have hnormal : r.stages.ordered[i].2.normal.buffer = i := hbuffer
  simp [Artifact.File.stageBytecode?, hentry, hnormal, hlt']

theorem idle_parsed {away : Place → Prop} {w₁ : World} (hlog : w.LogAvoids away)
    (hparse : (parseFile o.parser source).run w = (.ok r, w₁)) : w.Idle away (w₁.parsed o name r) := by
  have hidle := (parseFile_idle o.parser source hlog hparse).1
  exact hidle.trans (World.idle_log (hlog.of_idle hidle) _)

theorem wellFormed_of_parseFile {w₁ : World} (hparse : (parseFile o.parser source).run w = (.ok r, w₁)) :
    r.WellFormed :=
  (parseFile_idle o.parser source w.logAvoids_nowhere hparse).2 r rfl

theorem Recovered.WellFormed.metadata_renumbered (h : r.WellFormed) (name : Bytes) :
    { r.metadata name with stages := some r.stages.renumbered } = r.metadata name := by
  rw [h.stages.renumbered_eq]
  rfl

/-- The stages of a source that was parsed are compiled by one call each, in their order. -/
theorem compileStages_parsed {w₁ w₂ : World} {bytecode : List Bytes} (hfresh : FreshName o name w)
    (hparse : (parseFile o.parser source).run w = (.ok r, w₁))
    {compiler : CompilerOptions}
    (hcompile : (compileStages o compiler name r).run.run (w₁.parsed o name r) = (.ok bytecode, w₂)) :
    ∃ dir, w₂.calls = w.calls ++ (r.stages.ordered.map fun e =>
        compiler.tool :: compiler.stageArguments dir (Path.join dir (sourceName name)) e) ∧
      List.Forall₂ (WrittenBy compiler dir (Path.join dir (sourceName name)) r.source)
        r.stages.ordered bytecode := by
  have hfresh' : Bytes.slash ∉ workPattern name → FreshName o name (w₁.parsed o name r) :=
    fun hslash => hfresh.of_idle hslash fun away hlog => idle_parsed hlog hparse
  obtain ⟨dir, hcalled, hcodes⟩ := compileStages_ok hfresh' (wellFormed_of_parseFile hparse).stages hcompile
  have hidle : w.Idle (fun _ => False) (w₁.parsed o name r) := idle_parsed w.logAvoids_nowhere hparse
  exact ⟨dir, (hidle.called.trans hcalled).calls, hcodes⟩

end Encoding

/-- A tool that writes the entry point of each call for bytecode. -/
def echoOptions : PipelineOptions where
  compiler := { runner := .direct fun i => { bytecode := Invocation.argumentOf "-E" i.arguments } }

/-- The pixel stage comes first in the source, work directories are made behind a link, and all is logged. -/
def twoStageWorld : World where
  disk := { nodes := [
    ([utf8 "a.hlsl"], .file "float4 ps_main() : SV_TARGET \x7b\x7d\nfloat4 vs_main() : SV_POSITION \x7b\x7d\n" 0),
    ([utf8 "work"], .directory), ([utf8 "tmp"], .link "/work")] }
  logging := some { level := .debug, console := false, file := some (.standard "/log") }

/-- Every name that the tree or the log mentions. -/
def World.mentions (w : World) : List Bytes :=
  w.disk.cwd ++
    (w.disk.nodes.flatMap fun e =>
      match e.2 with
      | .link target => e.1 ++ Path.components target
      | _ => e.1) ++
    match w.logging.bind LogSettings.file with
    | some file => Path.components file.path
    | none => []

theorem freshName_of_length {o : PipelineOptions} {name : Bytes} {w : World} (hstar : octet '*' ∉ workPattern name)
    (hlong : ∀ c ∈ w.mentions, c.length < (workPattern name).length) : FreshName o name w := by
  intro n _
  have hnot : Disk.freshName (workPattern name) n ∉ w.mentions := by
    intro hmem
    have hlt := hlong _ hmem
    rw [Disk.freshName, Disk.patternParts, if_neg hstar, List.append_nil, List.length_append] at hlt
    dsimp only at hlt
    omega
  simp only [World.mentions, List.mem_append, List.mem_flatMap, not_or, not_exists, not_and] at hnot
  obtain ⟨⟨hcwd, hnodes⟩, hlog⟩ := hnot
  refine ⟨Disk.unmentioned_of_nodes hcwd fun e he => ?_, fun s file hs hfile => ?_⟩
  · have hentry := hnodes e he
    split at hentry
    · rename_i target htarget
      rw [List.mem_append, not_or] at hentry
      exact ⟨hentry.1, fun target' htarget' => by cases htarget.symm.trans htarget'; exact hentry.2⟩
    · rename_i hne
      exact ⟨hentry, fun target htarget => absurd htarget (hne target)⟩
  · rw [hs, Option.bind_some, hfile] at hlog
    exact hlog

end ShaderForge
