import ShaderForge.Command.Inspect
import ShaderForge.Proofs.Files.Unpacking
import ShaderForge.Proofs.Pipeline.Atomic

/-!
# ShaderForge.Proofs.Command.Extraction

The artifact of a source is extracted to one file for its metadata and one for each stage.

* `Command.run_extractFiles`    — files that are written one after another.
* `Command.extractedFiles`      — the files of a shader.
* `Command.run_extract`         — the command, for an artifact that can be extracted.
* `Nameable`                    — what is known of the name of a shader that was encoded.
* `Recovered.WellFormed.extractable`, `Recovered.WellFormed.fits` — the artifact of a source is such a one, and its
  files can be written to an empty directory.
-/

namespace ShaderForge

namespace Command

variable {ε α : Type}

theorem run_lift (error : ε → CommandError) (a : Action (Except ε α)) (w : World) :
    (lift error a).run.run w = match a.run w with
      | (.ok x, w') => (.ok x, w')
      | (.error e, w') => (.error (error e), w') := by
  unfold lift
  rw [ExceptT.run_mk, StateT.run_bind]
  rcases a.run w with ⟨_ | _, _⟩ <;> rfl

theorem run_require (error : ε → CommandError) (r : Except ε α) (w : World) :
    (require error r).run.run w = (r.mapError error, w) := by
  rw [require, run_lift]
  cases r <;> rfl

/-- Files that are written one after another. -/
def extractFiles (dir : Path) (files : List (Bytes × Bytes)) : Command Unit :=
  files.forM fun f => extractFile (Path.join dir f.1) f.2

/-- The files can be written to the directory, where nothing stands in their way. -/
structure Fits (dir : Path) (P : Place) (files : List (Bytes × Bytes)) (d : Disk) : Prop where
  directory : d.find true (Path.clean dir) = .ok (.node P .directory)
  names : ∀ f ∈ files, Disk.FileName f.1
  room : ∀ f ∈ files, (Path.join dir f.1).length < Disk.maxPath
  free : ∀ f ∈ files, d.node? (P ++ [f.1]) = none
  distinct : (files.map Prod.fst).Nodup

theorem run_extractFiles {dir : Path} {P : Place} {files : List (Bytes × Bytes)} {w : World}
    (h : Fits dir P files w.disk) :
    ∃ w', (extractFiles dir files).run.run w = (.ok (), w') ∧ w.disk.Unpacked P files w'.disk := by
  induction files generalizing w with
  | nil => exact ⟨w, rfl, .refl P w.disk⟩
  | cons f files ih =>
    obtain ⟨hfirst, hrest⟩ := List.nodup_cons.1 h.distinct
    obtain ⟨hstore, hdirectory⟩ := Disk.store_join h.directory (h.names f List.mem_cons_self)
      (h.room f List.mem_cons_self) (h.free f List.mem_cons_self) f.2
    have hwritten : ∃ w₁, (extractFile (Path.join dir f.1) f.2).run.run w = (.ok (), w₁) ∧
        w₁.disk = w.disk.putFile (P ++ [f.1]) f.2 := by
      unfold extractFile
      rw [Step.run_bind, run_lift, Action.run_perform, hstore]
      exact ⟨_, rfl, rfl⟩
    obtain ⟨w₁, hrun, hdisk⟩ := hwritten
    rw [← hdisk] at hdirectory
    have hfits : Fits dir P files w₁.disk := by
      refine ⟨hdirectory, fun g hg => h.names g (List.mem_cons_of_mem _ hg),
        fun g hg => h.room g (List.mem_cons_of_mem _ hg), fun g hg => ?_, hrest⟩
      rw [hdisk, (Disk.adds_putFile (by simp) f.2).of_ne]
      · exact h.free g (List.mem_cons_of_mem _ hg)
      · intro heq
        have hname : g.1 = f.1 := by simpa using heq
        exact hfirst (hname ▸ List.mem_map_of_mem hg)
    obtain ⟨w', hrun', hunpacked⟩ := ih hfits
    refine ⟨w', ?_, (hdisk ▸ hunpacked).of_putFile hfirst⟩
    show ((extractFile (Path.join dir f.1) f.2 >>= fun _ => extractFiles dir files).run.run w) = _
    rw [Step.run_bind, hrun]
    exact hrun'

end Command

theorem Disk.mkdirAll_of_find {d : Disk} {dir : Path} {P : Place} (h : d.find true dir = .ok (.node P .directory)) :
    d.mkdirAll dir = (d, .ok ()) := by
  have hstat : d.stat dir = .ok .directory := by rw [stat, inspect, h]
  rw [mkdirAll, ensure, hstat]

/-- An artifact that can be extracted: `text` is its metadata, `codes` the bytecode of its stages in order. -/
structure Artifact.File.Extractable (f : Artifact.File) (text : Bytes) (codes : List Bytes) : Prop where
  shaderName : checkName f.metadata.shaderName = .ok ()
  entryNames : ∀ e ∈ f.metadata.stageTable.toList, checkName e.2.entryPoint = .ok ()
  text : f.metadata.indentedText = .ok text
  codes : List.Forall₂ (fun e code => f.stageBytecode? e.1 = some code) f.metadata.stageTable.ordered codes

namespace Command

def stageFile (stem : Bytes) (dialect : Dialect) (st : Stage) : Bytes :=
  stem ++ "." ++ st.entryPoint ++ bytecodeExt dialect

def stageFiles (stem : Bytes) (dialect : Dialect) (stages : List (StageKind × Stage)) (codes : List Bytes) :
    List (Bytes × Bytes) :=
  (stages.zip codes).map fun x => (stageFile stem dialect x.1.2, x.2)

/-- The files of an artifact: the metadata, then each stage. -/
def extractedFiles (stem : Bytes) (dialect : Dialect) (text : Bytes) (stages : List (StageKind × Stage))
    (codes : List Bytes) : List (Bytes × Bytes) :=
  (stem ++ ".json", text) :: stageFiles stem dialect stages codes

theorem extractedFiles_normal (stem : Bytes) (dialect : Dialect) (text : Bytes) (s : Stages) (codes : List Bytes) :
    extractedFiles stem dialect text s.normal.ordered codes = extractedFiles stem dialect text s.ordered codes := by
  rw [extractedFiles, extractedFiles, stageFiles, stageFiles, Stages.ordered_normal, List.zip_map_left, List.map_map]
  rfl

/-- How the files of a shader end that are compiled for the usual backend. -/
def fileEndings : List Bytes := [utf8 ".json", utf8 ".vs_main.dxil", utf8 ".ps_main.dxil"]

theorem extractStages_eq {f : Artifact.File} (dir : Path) (stem : Bytes) {stages : List (StageKind × Stage)}
    {codes : List Bytes} (h : List.Forall₂ (fun e code => f.stageBytecode? e.1 = some code) stages codes) :
    extractStages f dir stem stages = extractFiles dir (stageFiles stem f.dialect stages codes) := by
  induction h with
  | nil => rfl
  | @cons e code stages codes he _ ih =>
    obtain ⟨kind, st⟩ := e
    rw [extractStages, ih]
    dsimp only at he
    rw [he]
    rfl

theorem run_forM_require {error : ε → CommandError} {check : α → Except ε Unit} {l : List α}
    (h : ∀ a ∈ l, check a = .ok ()) (w : World) :
    (l.forM fun a => require error (check a)).run.run w = (.ok (), w) := by
  induction l with
  | nil => rfl
  | cons a l ih =>
    show ((require error (check a) >>= fun _ => l.forM fun a => require error (check a)).run.run w) = _
    rw [Step.run_bind, run_require, h a List.mem_cons_self]
    exact ih fun b hb => h b (List.mem_cons_of_mem _ hb)

theorem run_extract {w : World} {path dir : Path} {P : Place} {data : Bytes} {f : Artifact.File} {text : Bytes}
    {codes : List Bytes} (hdata : w.disk.contents path = .ok data) (hdecode : Artifact.decode data = .ok f)
    (hf : f.Extractable text codes) (hdir : w.disk.find true dir = .ok (.node P .directory))
    {files : List (Bytes × Bytes)} (hfiles : files = extractedFiles f.metadata.shaderName.lower f.dialect text
      f.metadata.stageTable.ordered codes)
    (hfits : Fits dir P files w.disk) :
    ∃ w', (extract [path, dir]).run.run w = (.ok (), w') ∧ w.disk.Unpacked P files w'.disk := by
  obtain ⟨w', hrun, hunpacked⟩ := run_extractFiles hfits
  refine ⟨w', ?_, hunpacked⟩
  have hload : (Action.look fun d => Artifact.load d path).run w = (.ok f, w) := by
    show (Artifact.load w.disk path, w) = _
    rw [Artifact.load, hdata]
    dsimp only
    rw [hdecode]
  have hmkdir : (Action.performAll fun d => d.mkdirAll dir).run w = (.ok (), w) := by
    show ((w.disk.mkdirAll dir).2, { w with disk := (w.disk.mkdirAll dir).1 }) = _
    rw [Disk.mkdirAll_of_find hdir]
  unfold extract
  dsimp only [List.headD]
  rw [Step.run_bind, run_lift, hload]
  dsimp only
  rw [Step.run_bind, run_lift, hmkdir]
  dsimp only
  rw [Step.run_bind, run_require, hf.shaderName]
  dsimp only [Except.mapError]
  rw [Step.run_bind, run_forM_require hf.entryNames]
  dsimp only
  rw [Step.run_bind, run_require, hf.text]
  dsimp only [Except.mapError]
  rw [extractStages_eq dir _ hf.codes, ← hrun, hfiles]
  rfl

end Command

/-! ## Names -/

/-- What is known of the name of a shader that was encoded: a work directory could be named after it. -/
structure Nameable (name : Bytes) : Prop where
  checked : checkName name = .ok ()
  no_slash : Bytes.slash ∉ workPattern name
  no_nul : 0 ∉ name.lower
  short : name.lower.length + 18 ≤ Disk.maxName

theorem Disk.names_of_mkdir {d d' : Disk} {parent : Path} {base : Bytes} (hbase : Path.Plain base)
    (h : d.mkdir (inside parent base) = .ok d') : 0 ∉ base ∧ base.length ≤ maxName := by
  obtain ⟨q, asDirectory, hfind, -⟩ := mkdir_eq_ok h
  obtain ⟨hadmissible, hleads⟩ := find_eq_ok_iff.1 hfind
  obtain ⟨front, hfront⟩ := components_inside parent hbase
  have hmem : base ∈ Path.components (inside parent base) := by simp [hfront]
  rw [hfront] at hleads
  obtain ⟨_, _, -, hlast⟩ := hleads.split ⟨base, by simp, hbase.ne_nil⟩
  refine ⟨fun hnul => ?_, (hlast.names hbase).short⟩
  have hcontains := Bytes.contains_singleton.2 (Bytes.subset_of_mem_split hmem hnul)
  rw [hadmissible.no_nul] at hcontains
  cases hcontains

theorem nameable_of_encodeSteps {o : PipelineOptions} {name : Bytes} {source : Path} {backend : Backend} {w w₁ : World}
    {data : Bytes} (h : (encodeSteps o name source backend).run.run w = (.ok data, w₁)) : Nameable name := by
  obtain ⟨_, _, hprepare, h⟩ := Step.run_bind_ok h
  obtain ⟨_, _, hchecked, -⟩ := Step.run_bind_ok hprepare
  obtain ⟨_, _, -, h⟩ := Step.run_bind_ok h
  obtain ⟨_, w₂, hcompiled, -⟩ := Step.run_bind_ok h
  obtain ⟨⟨dir, d'⟩, hmade⟩ := mkdirTemp_of_compileStages hcompiled
  obtain ⟨hslash, n, hdraws, rfl, hmkdir⟩ := Disk.mkdirTemp_eq_ok hmade
  obtain ⟨hnul, hshort⟩ := Disk.names_of_mkdir (Disk.plain_freshName hslash n) hmkdir
  refine ⟨?_, hslash, fun hmem => ?_, ?_⟩
  · rw [Step.run_require] at hchecked
    split at hchecked
    · assumption
    · cases hchecked
  · exact hnul (Disk.mem_freshName (by simp [workPattern, hmem]) (by decide) n)
  · -- the numeral has ten digits
    have hlength := Disk.length_freshName (workPattern name) n
    have hdigits : 9 < (Bytes.ofNat n).length := Bytes.lt_length_ofNat hdraws.numeral
    have hpattern : (workPattern name).length = 8 + name.lower.length + 1 := by
      rw [workPattern, List.length_append, List.length_append]
      rfl
    omega

theorem Nameable.fileName {name ext : Bytes} (h : Nameable name) (hlong : 2 < ext.length) (hshort : ext.length ≤ 18)
    (hslash : Bytes.slash ∉ ext) (hnul : 0 ∉ ext) : Disk.FileName (name.lower ++ ext) where
  plain := plain_lower_append h.no_slash hlong hslash
  short := by
    have hlower := h.short
    rw [List.length_append]
    omega
  no_nul := by
    rw [List.mem_append, not_or]
    exact ⟨h.no_nul, hnul⟩

/-! ## Artifacts of sources -/

namespace Recovered.WellFormed

variable {r : Recovered} {name text : Bytes} {codes : List Bytes}

theorem entryPoint_mem (h : r.WellFormed) {e : StageKind × Stage} (he : e ∈ r.stages.ordered) :
    e.2.entryPoint ∈ [StageKind.vertexEntryPoint, StageKind.pixelEntryPoint] :=
  StageKind.mem_of_ofEntryPoint? (h.stages.kinds_ordered e he)

theorem nodup_entryPoints (h : r.WellFormed) : (r.stages.ordered.map (·.2.entryPoint)).Nodup := by
  have hkinds : (r.stages.ordered.map (·.2.entryPoint)).map StageKind.ofEntryPoint? =
      (r.stages.ordered.map (·.1)).map some := by
    rw [List.map_map, List.map_map]
    exact List.map_congr_left fun e he => h.stages.kinds_ordered e he
  have hkeys : (r.stages.ordered.map (·.1)).Nodup :=
    (((sortBy_perm r.stages.toList).map _).nodup_iff).2 r.stages.ascending.nodup
  refine List.Nodup.of_map StageKind.ofEntryPoint? ?_
  rw [hkinds]
  exact hkeys.map (Option.some_injective _)

theorem extractable (h : r.WellFormed) (hname : Nameable name) (htext : (r.metadata name).indentedText = .ok text)
    (hlen : r.stages.ordered.length = codes.length) {size : UInt32} {chunks : List Chunk} :
    Artifact.File.Extractable ⟨size, .dxil, (r.metadata name).normal, codes, chunks⟩ text codes where
  shaderName := hname.checked
  entryNames e he := by
    have hentries : ∀ entry ∈ [StageKind.vertexEntryPoint, StageKind.pixelEntryPoint], checkName entry = .ok () := by
      decide
    obtain ⟨e', he', rfl⟩ := List.mem_map.1 he
    exact hentries e'.2.entryPoint (h.entryPoint_mem ((sortBy_perm _).mem_iff.2 he'))
  text := by rw [Metadata.indentedText_normal, htext]
  codes := by
    rw [Metadata.stageTable_normal, Stages.ordered_normal, List.forall₂_map_left_iff]
    exact stageBytecode?_ordered h.stages rfl hlen

theorem mem_extractedFiles (h : r.WellFormed) {f : Bytes × Bytes}
    (hf : f ∈ Command.extractedFiles name.lower .dxil text r.stages.ordered codes) :
    ∃ ext ∈ Command.fileEndings, f.1 = name.lower ++ ext := by
  have hexts : ∀ entry ∈ [StageKind.vertexEntryPoint, StageKind.pixelEntryPoint],
      utf8 "." ++ (entry ++ utf8 ".dxil") ∈ Command.fileEndings := by decide
  obtain rfl | hstage := List.mem_cons.1 hf
  · exact ⟨_, List.mem_cons_self, rfl⟩
  · obtain ⟨⟨e, code⟩, hmem, rfl⟩ := List.mem_map.1 hstage
    refine ⟨_, hexts _ (h.entryPoint_mem (List.of_mem_zip hmem).1), ?_⟩
    rw [← List.append_assoc, ← List.append_assoc]
    rfl

theorem nodup_extractedFiles (h : r.WellFormed) (hlen : r.stages.ordered.length = codes.length) :
    ((Command.extractedFiles name.lower .dxil text r.stages.ordered codes).map Prod.fst).Nodup := by
  let stageName (entry : Bytes) : Bytes := name.lower ++ utf8 "." ++ entry ++ Command.bytecodeExt .dxil
  have hnames : (Command.stageFiles name.lower .dxil r.stages.ordered codes).map Prod.fst =
      (r.stages.ordered.map (·.2.entryPoint)).map stageName := by
    calc (Command.stageFiles name.lower .dxil r.stages.ordered codes).map Prod.fst
        = ((r.stages.ordered.zip codes).map Prod.fst).map fun e => Command.stageFile name.lower .dxil e.2 := by
          rw [Command.stageFiles, List.map_map, List.map_map]
          rfl
      _ = (r.stages.ordered.map (·.2.entryPoint)).map stageName := by
          rw [List.map_fst_zip hlen.le, List.map_map]
          rfl
  have hinjective : Function.Injective stageName :=
    fun _ _ hab => List.append_cancel_left (List.append_cancel_right hab)
  rw [Command.extractedFiles, List.map_cons, List.nodup_cons, hnames]
  refine ⟨fun hmem => ?_, h.nodup_entryPoints.map hinjective⟩
  obtain ⟨entry, hentry, heq⟩ := List.mem_map.1 hmem
  obtain ⟨e, he, rfl⟩ := List.mem_map.1 hentry
  have hne : ∀ entry ∈ [StageKind.vertexEntryPoint, StageKind.pixelEntryPoint],
      utf8 "." ++ (entry ++ Command.bytecodeExt .dxil) ≠ utf8 ".json" := by decide
  have heq' : name.lower ++ (utf8 "." ++ (e.2.entryPoint ++ Command.bytecodeExt .dxil)) =
      name.lower ++ utf8 ".json" := by
    rw [← List.append_assoc, ← List.append_assoc]
    exact heq
  exact hne _ (h.entryPoint_mem he) (List.append_cancel_left heq')

theorem fits (h : r.WellFormed) (hname : Nameable name) (hlen : r.stages.ordered.length = codes.length) {dir : Path}
    {P : Place} {d : Disk} (hdir : d.find true (Path.clean dir) = .ok (.node P .directory))
    (hempty : ∀ c, d.node? (P ++ [c]) = none)
    (hroom : ∀ ext ∈ Command.fileEndings,
      (Path.join dir (name.lower ++ ext)).length < Disk.maxPath) :
    Command.Fits dir P (Command.extractedFiles name.lower .dxil text r.stages.ordered codes) d where
  directory := hdir
  names f hf := by
    have hexts : ∀ ext ∈ Command.fileEndings,
        2 < ext.length ∧ ext.length ≤ 18 ∧ Bytes.slash ∉ ext ∧ 0 ∉ ext := by decide
    obtain ⟨ext, hext, heq⟩ := h.mem_extractedFiles hf
    obtain ⟨hlong, hshort, hslash, hnul⟩ := hexts ext hext
    exact heq ▸ hname.fileName hlong hshort hslash hnul
  room f hf := by
    obtain ⟨ext, hext, heq⟩ := h.mem_extractedFiles hf
    exact heq ▸ hroom ext hext
  free f _ := hempty f.1
  distinct := h.nodup_extractedFiles hlen

end Recovered.WellFormed

end ShaderForge
