import ShaderForge.Command.Program
import ShaderForge.Proofs.Command.Extraction
import ShaderForge.Proofs.Pipeline.LoggedParsing
import ShaderForge.Proofs.Pipeline.Outcome

/-!
# ShaderForge.Proofs.Command.Views

The metadata that is printed for a source and the files that are extracted from its artifact are the same.

* `FlagValues.Alike`        — flags that set the same things, the source apart.
* `Program.run_eq_zero_iff` — a program that ends well.
* `Command.compileShader_of_compile`, `Command.run_parse` — the two commands.
* `Encoded`                 — what an artifact was made of; so it can be extracted.
* `SameCall`, `Views`       — calls with the same source, name and flags, and what they show.
* `views_agree`             — what is printed, what is stored and what is extracted.
-/

namespace ShaderForge

/-! ## Flags -/

namespace FlagValues

variable {vs vs' : FlagValues}

/-- Each target but the source is given the same values in the same order. -/
def Alike (vs vs' : FlagValues) : Prop :=
  ∀ target, target ≠ utf8 "i" → vs.filter (·.1 = target) = vs'.filter (·.1 = target)

theorem last?_eq (vs : FlagValues) (target : String) :
    vs.last? target = ((vs.filter (·.1 = utf8 target)).reverse.head?).map Prod.snd := by
  rw [last?, ← List.filter_reverse, List.head?_filter]

theorem texts_eq (vs : FlagValues) (target : String) :
    vs.texts target = texts (vs.filter (·.1 = utf8 target)) target := by
  rw [texts, texts, List.filterMap_filter]
  refine List.filterMap_congr fun x _ => ?_
  obtain ⟨t, v⟩ := x
  by_cases ht : t = utf8 target
  · simp [ht]
  · cases v <;> simp [ht]

theorem Alike.last? (h : vs.Alike vs') (target : String) (ht : utf8 target ≠ utf8 "i") :
    vs.last? target = vs'.last? target := by
  rw [last?_eq, last?_eq, h _ ht]

theorem Alike.text (h : vs.Alike vs') (target : String) (ht : utf8 target ≠ utf8 "i") :
    vs.text target = vs'.text target := by
  rw [FlagValues.text, FlagValues.text, h.last? target ht]

theorem Alike.isSet (h : vs.Alike vs') (target : String) (ht : utf8 target ≠ utf8 "i") :
    vs.isSet target = vs'.isSet target := by
  rw [FlagValues.isSet, FlagValues.isSet, h.last? target ht]

theorem Alike.withFlags (h : vs.Alike vs') (s : Settings) : s.withFlags vs = s.withFlags vs' := by
  have hinclude : vs.texts "include" = vs'.texts "include" := by
    rw [texts_eq, texts_eq vs', h _ (by decide)]
  have htimeout : vs.duration "timeout" = vs'.duration "timeout" := by
    rw [duration, duration, h.last? _ (by decide)]
  have hworkers : vs.int "workers" = vs'.int "workers" := by
    rw [int, int, h.last? _ (by decide)]
  simp only [Settings.withFlags, hinclude, htimeout, hworkers, h.text "backend" (by decide), h.text "dxc" (by decide),
    h.text "shader-model" (by decide), h.text "out" (by decide), h.text "log-file" (by decide),
    h.isSet "strict" (by decide), h.isSet "debug" (by decide)]

theorem Alike.loadSettings (h : vs.Alike vs') (w : World) :
    loadSettings w (some vs) = loadSettings w (some vs') := by
  simp only [ShaderForge.loadSettings, h.text "config" (by decide), h.withFlags]

end FlagValues

/-! ## Programs that end well -/

namespace Program

variable {runner : Runner} {name : Bytes} {args : List Bytes} {command : List Bytes → Command Unit}

theorem reportError_ne_zero (name : Bytes) (e : CommandError) (w : World) :
    ((reportError name e).run w).1 ≠ .code 0 := by
  intro h
  unfold reportError at h
  split at h
  · cases h
  · cases h
  · split at h
    · cases h
    · cases h

theorem run_eq_zero_iff (hcommand : command? runner name = some command) {w w' : World} :
    (run runner (name :: args)).run w = (.code 0, w') ↔ (command args).run.run w = (.ok (), w') := by
  unfold run
  dsimp only
  rw [hcommand]
  dsimp only
  rw [StateT.run_bind]
  rcases (command args).run.run w with ⟨e | _, w₁⟩
  · constructor
    · intro h
      exact absurd (congrArg Prod.fst h) (reportError_ne_zero name e w₁)
    · rintro ⟨⟩
  · constructor <;> rintro ⟨⟩ <;> rfl

end Program

/-! ## Commands -/

def World.opened (w : World) (s : Settings) : World := { w with logging := some s.logSettings }

theorem run_setup {w : World} {vs : FlagValues} {s : Settings} (h : loadSettings w (some vs) = .ok s) :
    (setup vs).run.run w = (.ok s, (w.opened s).logged [⟨.debug, [], s.digest, []⟩]) := by
  unfold setup
  rw [Step.run_bind]
  show (Command.require .settings (loadSettings w (some vs)) >>= _).run.run w = _
  rw [Step.run_bind, Command.run_require, h]
  rfl

namespace Command

variable {runner : Runner} {args rest : List Bytes} {vs : FlagValues} {s : Settings} {source : Path} {w w' : World}

theorem run_flags {flags : List Flag} {found : FlagValues × List Bytes} (h : parseFlags flags [] args = .ok found)
    (command : Bytes) (w : World) : (Command.flags command flags args).run.run w = (.ok found, w) := by
  unfold Command.flags
  rw [h]
  rfl

/-- When a call ends well, its shader was compiled, with log entries before. -/
theorem compileShader_of_compile (hflags : parseFlags compileFlags [] args = .ok (vs, rest))
    (hsettings : loadSettings w (some vs) = .ok s) (hsource : overriding (vs.text "i") (rest.headD []) = source)
    (h : (compile runner args).run.run w = (.ok (), w')) :
    ∃ entries path w₁, (compileShader (s.pipelineOptions runner) (shaderName (vs.text "n") source) source
      s.build.backend s.build.outputDir).run ((w.opened s).logged entries) = (.ok path, w₁) ∧
      w'.disk = w₁.disk ∧ w'.calls = w₁.calls := by
  unfold compile at h
  rw [Step.run_bind, run_flags hflags] at h
  dsimp only at h
  rw [hsource] at h
  by_cases hinput : source = []
  · rw [if_pos hinput] at h
    cases h
  rw [if_neg hinput, Step.run_bind, run_setup hsettings] at h
  obtain ⟨_, _, hlogged, h⟩ := Step.run_bind_ok h
  cases hlogged
  obtain ⟨path, w₁, hcompiled, h⟩ := Step.run_bind_ok h
  cases h
  rw [run_lift, World.log_logged] at hcompiled
  split at hcompiled
  · rename_i hrun
    cases hcompiled
    exact ⟨_, path, w₁, hrun, rfl, rfl⟩
  · cases hcompiled

theorem run_parse {r : Recovered} {text : Bytes}
    (hflags : parseFlags (commonFlags ++ [nameFlag]) [] args = .ok (vs, source :: rest))
    (hsettings : loadSettings w (some vs) = .ok s) {entries : List LogEntry}
    (hparse : (parseFile s.parserSettings source).run ((w.opened s).logged [⟨.debug, [], s.digest, []⟩]) =
      (.ok r, (w.opened s).logged entries))
    (htext : (r.metadata (ShaderForge.shaderName (vs.text "n") source)).indentedText = .ok text) :
    ∃ w', (parse args).run.run w = (.ok (), w') ∧ w'.stdout = w.stdout ++ text ++ [Bytes.lf] := by
  unfold parse
  rw [Step.run_bind, run_flags hflags]
  dsimp only
  rw [Step.run_bind, run_setup hsettings]
  dsimp only
  rw [Step.run_bind, run_lift, hparse]
  dsimp only
  rw [Step.run_bind, run_require, htext]
  refine ⟨_, rfl, ?_⟩
  show ((w.opened s).logged entries).stdout ++ (text ++ [Bytes.lf]) = _
  rw [World.stdout_logged, List.append_assoc]
  rfl

end Command

/-- A call to compile and a call to print the metadata, with the same source, name and flags. -/
inductive SameCall (w : World) (compileArgs parseArgs : List Bytes) (s : Settings) (name : Bytes) (source : Path) : Prop
  | mk {vs vs' : FlagValues} {rest rest' : List Bytes}
      (compileFlags : parseFlags Command.compileFlags [] compileArgs = .ok (vs, rest))
      (parseFlags : parseFlags (commonFlags ++ [Command.nameFlag]) [] parseArgs = .ok (vs', source :: rest'))
      (alike : vs.Alike vs') (settings : loadSettings w (some vs) = .ok s)
      (source_eq : overriding (vs.text "i") (rest.headD []) = source)
      (name_eq : shaderName (vs.text "n") source = name)

/-- A shader that was compiled was compiled for the one backend that there is a compiler for. -/
theorem backend_of_encodeSteps {o : PipelineOptions} {name : Bytes} {source : Path} {backend : Backend} {w w₁ : World}
    {data : Bytes} (h : (encodeSteps o name source backend).run.run w = (.ok data, w₁)) : backend = .directX12 := by
  obtain ⟨_, _, hprepare, -⟩ := Step.run_bind_ok h
  obtain ⟨_, _, -, hprepare⟩ := Step.run_bind_ok hprepare
  obtain ⟨_, _, hrequired, -⟩ := Step.run_bind_ok hprepare
  rw [Step.run_require, Backend.require] at hrequired
  by_contra hne
  rw [if_neg hne] at hrequired
  cases hrequired

theorem Recovered.WellFormed.indentedText_eq_ok {r : Recovered} (h : r.WellFormed) (name : Bytes) :
    ∃ text, (r.metadata name).indentedText = .ok text := by
  obtain ⟨text, htext⟩ := h.text_eq_ok name
  rw [Metadata.text] at htext
  obtain ⟨json, hjson, -⟩ := bind_eq_ok_iff.1 htext
  exact ⟨json.renderIndented, by rw [Metadata.indentedText, hjson]; rfl⟩

theorem World.isTree_logged {w : World} (h : w.disk.IsTree) (entries : List LogEntry) :
    (w.logged entries).disk.IsTree := by
  induction entries generalizing w with
  | nil => exact h
  | cons e entries ih => exact ih (w.log_isTree e h)

/-! ## A shader that is encoded -/

/-- What an artifact was made of: the parsed source, and the bytecode that the tool wrote for each stage. -/
structure Encoded (o : PipelineOptions) (name : Bytes) (source : Path) (w v : World) (r : Recovered) (dir : Path)
    (codes : List Bytes) (data : Bytes) : Prop where
  parsed : ((parseFile o.parser source).run w).1 = .ok r
  recovered : r.WellFormed
  nameable : Nameable name
  calls : v.calls = w.calls ++ (r.stages.ordered.map fun e => o.compiler.withDefaults.tool ::
    o.compiler.withDefaults.stageArguments dir (Path.join dir (sourceName name)) e)
  written : List.Forall₂ (WrittenBy o.compiler.withDefaults dir (Path.join dir (sourceName name)) r.source)
    r.stages.ordered codes
  encoded : Artifact.encode .dxil (some (r.metadata name)) codes = .ok data

section Encoded

variable {o : PipelineOptions} {name : Bytes} {source : Path} {backend : Backend} {w v w' : World} {r : Recovered}
  {dir : Path} {codes : List Bytes} {data text : Bytes}

theorem encoded_of_encodeShader (hnameable : Nameable name) (hfresh : FreshName o name w)
    (h : (encodeShader o name source .directX12).run w = (.ok data, v)) :
    ∃ r dir codes, Encoded o name source w v r dir codes data := by
  cases encodeCourse_of_run h with
  | @encoded r w₁ w₂ codes _ entry hparse hcompile hencode =>
    have hr := wellFormed_of_parseFile hparse
    rw [hr.metadata_renumbered] at hencode
    obtain ⟨dir, hcalls, hcodes⟩ := compileStages_parsed hfresh hparse hcompile
    have hlogged := (World.idle_log w₂.logAvoids_nowhere entry).calls
    exact ⟨r, dir, codes, congrArg Prod.fst hparse, hr, hnameable, hlogged.trans hcalls, hcodes, hencode⟩

/-- The artifact is extracted to an empty directory, if its files find room there. -/
theorem Encoded.run_extract (h : Encoded o name source w v r dir codes data) (hname : Utf8.isValid name = true)
    (htext : (r.metadata name).indentedText = .ok text) {u : World} {p out : Path} {P : Place}
    (hdata : u.disk.contents p = .ok data) (hout : u.disk.find true out = .ok (.node P .directory))
    (hempty : ∀ c, u.disk.node? (P ++ [c]) = none)
    (hclean : u.disk.find true (Path.clean out) = .ok (.node P .directory))
    (hroom : ∀ ending ∈ Command.fileEndings, (Path.join out (name.lower ++ ending)).length < Disk.maxPath) :
    ∃ u', (Command.extract [p, out]).run.run u = (.ok (), u') ∧
      u.disk.Unpacked P (Command.extractedFiles name.lower .dxil text r.stages.ordered codes) u'.disk := by
  have hlen := h.written.length_eq
  obtain ⟨_, -, hdecode⟩ := Artifact.encode_recovered h.recovered hname h.encoded
  refine Command.run_extract hdata hdecode (h.recovered.extractable h.nameable htext hlen) hout ?_
    (h.recovered.fits h.nameable hlen hclean hempty hroom)
  rw [Metadata.stageTable_normal]
  exact (Command.extractedFiles_normal _ _ _ _ _).symm

/-- A shader that was compiled was encoded, and the artifact was put at its place; then there was a log entry. -/
theorem encoded_of_compileShader {outDir path : Path} (htree : w.disk.IsTree)
    (h : (compileShader o name source backend outDir).run w = (.ok path, w')) :
    Nameable name ∧ ∃ data v d place entry, (encodeShader o name source .directX12).run w = (.ok data, v) ∧
      v.disk.Delivered d (Path.join outDir (artifactName name)) place data ∧
      w' = World.log entry { v with disk := d } := by
  have hcourse := compileCourse_of_run o name source backend outDir w
  rw [h] at hcourse
  cases hcourse with
  | @written data v w₂ entry hencode hwrite =>
    obtain rfl := backend_of_encodeSteps hencode
    obtain ⟨out, hout, -⟩ := exists_outputPath outDir (plain_artifactName hencode)
    have hstays := encodeSteps_isTree o name source .directX12 w htree
    rw [hencode] at hstays
    rw [← hout] at hwrite ⊢
    obtain ⟨P, d, rfl, -, hdelivered, -⟩ := delivered_of_written hstays hwrite
    refine ⟨nameable_of_encodeSteps hencode, data, v, d, _, entry, ?_, hdelivered, rfl⟩
    rw [run_encodeShader, hencode]

end Encoded

/-! ## Agreement -/

/-- The views of a shader that a call to compile has led from `w` to `w'`. Its metadata is `text`, `codes` is what the
tool wrote for each stage, and `data` is its artifact. -/
structure Views (runner : Runner) (s : Settings) (name : Bytes) (source : Path) (parseArgs : List Bytes) (w w' : World)
    (r : Recovered) (text : Bytes) (codes : List Bytes) (data : Bytes) : Prop where
  parsed : ((parseFile s.parserSettings source).run (w.opened s)).1 = .ok r
  metadata : (r.metadata name).indentedText = .ok text
  written : let compiler := (s.compilerOptions runner).withDefaults
    ∃ dir, w'.calls = w.calls ++ (r.stages.ordered.map fun e =>
        compiler.tool :: compiler.stageArguments dir (Path.join dir (sourceName name)) e) ∧
      List.Forall₂ (WrittenBy compiler dir (Path.join dir (sourceName name)) r.source) r.stages.ordered codes
  stored : ∃ entries v d place entry,
    (encodeShader (s.pipelineOptions runner) name source .directX12).run ((w.opened s).logged entries) = (.ok data, v) ∧
    v.disk.Delivered d (Path.join s.build.outputDir (artifactName name)) place data ∧
    w'.disk = (World.log entry { v with disk := d }).disk
  printed : ∃ u, (Program.run runner (utf8 "parse" :: parseArgs)).run w = (.code 0, u) ∧
    u.stdout = w.stdout ++ text ++ [Bytes.lf]
  extracted : ∀ u p out P, u.disk.contents p = .ok data → u.disk.find true out = .ok (.node P .directory) →
    (∀ c, u.disk.node? (P ++ [c]) = none) → u.disk.find true (Path.clean out) = .ok (.node P .directory) →
    (∀ ending ∈ Command.fileEndings, (Path.join out (name.lower ++ ending)).length < Disk.maxPath) →
    ∃ u', (Program.run runner [utf8 "extract", p, out]).run u = (.code 0, u') ∧
      u.disk.Unpacked P (Command.extractedFiles name.lower .dxil text r.stages.ordered codes) u'.disk

/-- The views of a shader agree, unless the log changes what the parser reads: the metadata that is printed is that of
the artifact, and the bytecode of the artifact is that of the tool. -/
theorem views_agree (runner : Runner) (w w' : World) {compileArgs parseArgs : List Bytes} {s : Settings} {name : Bytes}
    {source : Path} (hcall : SameCall w compileArgs parseArgs s name source) (hname : Utf8.isValid name = true)
    (htree : w.disk.IsTree) (hfresh : FreshName (s.pipelineOptions runner) name (w.opened s))
    (hspares : ∀ p ∈ w.disk.shelf.asked (s.parserSettings.options w) source, (w.opened s).LogSpares p)
    (hcompile : (Program.run runner (utf8 "compile" :: compileArgs)).run w = (.code 0, w')) :
    ∃ r text codes data, Views runner s name source parseArgs w w' r text codes data := by
  obtain @⟨vs, vs', _, _, hcompileFlags, hparseFlags, halike, hsettings, hsource, hshader⟩ := hcall
  have hran := (Program.run_eq_zero_iff rfl).1 hcompile
  obtain ⟨entries, path, w₁, hrun, hdisk, hcalls⟩ :=
    Command.compileShader_of_compile hcompileFlags hsettings hsource hran
  rw [hshader] at hrun
  have hidle : ∀ away, (w.opened s).LogAvoids away → World.Idle away (w.opened s) ((w.opened s).logged entries) :=
    fun away hlog => World.idle_logged hlog entries
  obtain ⟨hnameable, data, v, d, place, entry, hencode, hdelivered, rfl⟩ :=
    encoded_of_compileShader (World.isTree_logged (w := w.opened s) htree entries) hrun
  obtain ⟨r, dir, codes, hencoded⟩ :=
    encoded_of_encodeShader hnameable (hfresh.of_idle hnameable.no_slash hidle) hencode
  obtain ⟨text, htext⟩ := hencoded.recovered.indentedText_eq_ok name
  -- whatever was logged before, the source is parsed in the same way
  have hlogged := run_parseFile_logged s.parserSettings rfl (w := w.opened s) hspares
  have hparsed : w.disk.shelf.parsed (s.parserSettings.options w) source = .ok r := by
    obtain ⟨_, hparse⟩ := hlogged entries
    exact (congrArg Prod.fst hparse).symm.trans hencoded.parsed
  refine ⟨r, text, codes, data, ?_, htext, ⟨dir, ?_, hencoded.written⟩,
    ⟨entries, v, d, place, entry, hencode, hdelivered, hdisk⟩, ?_, ?_⟩
  · obtain ⟨_, hparse⟩ := hlogged []
    exact (congrArg Prod.fst hparse).trans hparsed
  · have hentry := (World.idle_log (World.logAvoids_nowhere { v with disk := d }) entry).calls
    rw [hcalls, hentry, hencoded.calls, (hidle _ (World.logAvoids_nowhere _)).calls]
    rfl
  · obtain ⟨entries', hparse⟩ := hlogged [⟨.debug, [], s.digest, []⟩]
    have hprinted : (r.metadata (shaderName (vs'.text "n") source)).indentedText = .ok text := by
      rw [← halike.text "n" (by decide), hshader, htext]
    obtain ⟨u, hu, hstdout⟩ := Command.run_parse hparseFlags (halike.loadSettings w ▸ hsettings)
      (hparse.trans (congrArg (Prod.mk · _) hparsed)) hprinted
    exact ⟨u, (Program.run_eq_zero_iff rfl).2 hu, hstdout⟩
  · intro u p out P hdata hout hempty hclean hroom
    obtain ⟨u', hu', hunpacked⟩ := hencoded.run_extract hname htext hdata hout hempty hclean hroom
    exact ⟨u', (Program.run_eq_zero_iff rfl).2 hu', hunpacked⟩

/-! ## A shader with two stages -/

theorem World.Unlogged.logSpares {w : World} (h : w.Unlogged) (p : Path) : w.LogSpares p := by
  have hdisk : ∀ entries, (w.logged entries).disk = w.disk := by
    intro entries
    induction entries generalizing w with
    | nil => rfl
    | cons e entries ih =>
      have hunlogged : (w.log e).Unlogged := fun s hs => h s ((h.log e).logging ▸ hs)
      exact (ih hunlogged).trans (h.disk_log e)
  intro entries
  rw [hdisk]
  exact ⟨rfl, rfl⟩

/-- The pixel stage comes first in the source. -/
def viewWorld : World where
  disk := { nodes := [
    ([utf8 "a.hlsl"], .file "float4 ps_main() : SV_TARGET \x7b\x7d\nfloat4 vs_main() : SV_POSITION \x7b\x7d\n" 0),
    ([utf8 "tmp"], .directory)] }

def viewCompileArgs : List Bytes := ["-n", "Aa", "-o", "/build", "-i", "/a.hlsl"]

def viewParseArgs : List Bytes := ["-out", "/build", "-n", "Aa", "/a.hlsl"]

def viewFlags : FlagValues := [("n", .text "Aa"), ("out", .text "/build"), ("i", .text "/a.hlsl")]

theorem viewFlags_alike : viewFlags.Alike [("out", .text "/build"), ("n", .text "Aa")] := by
  intro target htarget
  by_cases hn : utf8 "n" = target
  · subst hn
    decide
  by_cases hout : utf8 "out" = target
  · subst hout
    decide
  · simp [viewFlags, hn, hout, htarget.symm]

theorem exists_viewSettings : ∃ s, loadSettings viewWorld (some viewFlags) = .ok s ∧ s.logTarget = none := by
  have hloads : (loadSettings viewWorld (some viewFlags)).toOption.any (·.logTarget.isNone) = true := by cbv
  rcases hsettings : loadSettings viewWorld (some viewFlags) with _ | s
  · rw [hsettings] at hloads
    cases hloads
  · rw [hsettings] at hloads
    exact ⟨s, rfl, Option.isNone_iff_eq_none.1 hloads⟩

set_option maxRecDepth 4000 in
theorem views_agree_twoStages :
    let runner := echoOptions.compiler.runner
    ∃ s, SameCall viewWorld viewCompileArgs viewParseArgs s "Aa" "/a.hlsl" ∧ Utf8.isValid (utf8 "Aa") = true ∧
      viewWorld.disk.IsTree ∧ FreshName (s.pipelineOptions runner) "Aa" (viewWorld.opened s) ∧
      (∀ p ∈ viewWorld.disk.shelf.asked (s.parserSettings.options viewWorld) "/a.hlsl",
        (viewWorld.opened s).LogSpares p) ∧
      ∃ w', (Program.run runner (utf8 "compile" :: viewCompileArgs)).run viewWorld = (.code 0, w') ∧
        ∃ r text codes data, Views runner s "Aa" "/a.hlsl" viewParseArgs viewWorld w' r text codes data ∧
          ∃ u u' : World, u.disk.contents "/a.bin" = .ok data ∧
            (Program.run runner ["extract", "/a.bin", "/x"]).run u = (.code 0, u') ∧
            u.disk.Unpacked [utf8 "x"] (Command.extractedFiles "aa" .dxil text r.stages.ordered codes) u'.disk := by
  intro runner
  obtain ⟨s, hsettings, hlog⟩ := exists_viewSettings
  have hcall : SameCall viewWorld viewCompileArgs viewParseArgs s "Aa" "/a.hlsl" :=
    @SameCall.mk _ _ _ _ _ _ viewFlags _ [] [] (by cbv) (by cbv) viewFlags_alike hsettings (by decide) (by decide)
  have htree : viewWorld.disk.IsTree := .of_parents (by decide)
  have hmentions : (viewWorld.opened s).mentions = viewWorld.mentions := by
    simp [World.mentions, World.opened, Settings.logSettings, hlog, viewWorld]
  have hfresh : FreshName (s.pipelineOptions runner) "Aa" (viewWorld.opened s) :=
    freshName_of_length (by decide) (hmentions ▸ by decide)
  have hunlogged : (viewWorld.opened s).Unlogged := by
    rintro _ ⟨⟩
    exact hlog
  have hspares : ∀ p ∈ viewWorld.disk.shelf.asked (s.parserSettings.options viewWorld) "/a.hlsl",
      (viewWorld.opened s).LogSpares p := fun p _ => hunlogged.logSpares p
  have hexit : ((Program.run runner (utf8 "compile" :: viewCompileArgs)).run viewWorld).1 = .code 0 := by cbv
  rcases hcompile : (Program.run runner (utf8 "compile" :: viewCompileArgs)).run viewWorld with ⟨_, w'⟩
  rw [hcompile] at hexit
  cases hexit
  obtain ⟨r, text, codes, data, hviews⟩ :=
    views_agree runner viewWorld w' hcall (by decide) htree hfresh hspares hcompile
  let u : World := { disk := { nodes := [([utf8 "a.bin"], .file data 0), ([utf8 "x"], .directory)] } }
  have hdata : u.disk.contents "/a.bin" = .ok data := by cbv
  have hdir : u.disk.find true "/x" = .ok (.node [utf8 "x"] .directory) := by cbv
  have hempty : ∀ c, u.disk.node? ([utf8 "x"] ++ [c]) = none := fun c => by simp [Disk.node?, u, List.lookup]
  obtain ⟨u', hextract, hunpacked⟩ := hviews.extracted u "/a.bin" "/x" [utf8 "x"] hdata hdir hempty hdir (by decide)
  exact ⟨s, hcall, by decide, htree, hfresh, hspares, w', rfl, r, text, codes, data, hviews, u, u', hdata,
    hextract, hunpacked⟩

/-! ## A directory that does not get its files -/

/-- A link leads to a directory that has an empty one beside it. -/
def strayWorld : World where
  disk := { nodes := [
    ([utf8 "a.hlsl"], .file "float4 vs_main() \x7b\x7d" 0), ([utf8 "tmp"], .directory), ([utf8 "other"], .directory),
    ([utf8 "other", utf8 "sub"], .directory), ([utf8 "other", utf8 "out"], .directory),
    ([utf8 "link"], .link "/other/sub")] }

def strayCompiled : Program.Exit × World :=
  (Program.run echoOptions.compiler.runner ["compile", "-o", "/", "/a.hlsl"]).run strayWorld

set_option maxRecDepth 4000 in
theorem strayCompiled_eq : strayCompiled.1 = .code 0 ∧
    strayCompiled.2.disk.find true "/link/../out" = .ok (.node [utf8 "other", utf8 "out"] .directory) ∧
    (strayCompiled.2.disk.nodes.all fun e => decide (e.1.length < 3)) = true ∧
    ((Program.run echoOptions.compiler.runner ["extract", "/a.bin", "/link/../out"]).run strayCompiled.2).1 =
      .code 1 := by cbv

/-- A directory is made at the path as it is given, but files are written under the path as it is cleaned. Behind a
link the two differ, and extracting to an empty directory fails. -/
theorem extract_astray :
    strayCompiled.1 = .code 0 ∧
      strayCompiled.2.disk.find true "/link/../out" = .ok (.node [utf8 "other", utf8 "out"] .directory) ∧
      (∀ c, strayCompiled.2.disk.node? ([utf8 "other", utf8 "out"] ++ [c]) = none) ∧
      ((Program.run echoOptions.compiler.runner ["extract", "/a.bin", "/link/../out"]).run strayCompiled.2).1 =
        .code 1 := by
  obtain ⟨hexit, hfind, hnodes, hextract⟩ := strayCompiled_eq
  refine ⟨hexit, hfind, fun c => ?_, hextract⟩
  rw [Disk.node?, if_neg (by simp), List.lookup_eq_none_iff]
  intro e he
  have hlength := of_decide_eq_true (List.all_eq_true.1 hnodes e he)
  rw [bne_iff_ne]
  intro heq
  rw [← heq] at hlength
  exact absurd hlength (by simp)

end ShaderForge
