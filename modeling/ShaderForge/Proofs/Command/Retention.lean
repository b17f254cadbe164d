import Mathlib
import ShaderForge.Proofs.Command.Confinement
import ShaderForge.Proofs.Command.Listing

/-!
# ShaderForge.Proofs.Command.Retention

What is left of the bytecode of an artifact that is extracted.

* `Disk.Seats`, `Disk.Seats.store` — names of a directory that lead to a place of their own each.
* `Command.run_extractFiles_ok`  — of the files that are written under one name, the last is left.
* `Command.extract_eq_ok`        — all files of the artifact were written if the command succeeds.
* `Artifact.File.Retained`       — each stage has a file of its own, with its bytecode.
* `Artifact.contents_stageFile`  — the file of a stage holds the bytecode of the last stage with its entry point.
* `extract_retains`              — so it is, exactly if no two stages have the same entry point.
* `extract_overwrites`           — two stages that have.
-/

namespace ShaderForge

namespace Disk

variable {d d' : Disk} {dir : Path} {names : List Bytes} {seat : Bytes → Place} {x content : Bytes}

/-- Each of the names leads, in the directory, to a place that no other leads to. -/
structure Seats (dir : Path) (names : List Bytes) (seat : Bytes → Place) (d : Disk) : Prop where
  apart : ∀ x ∈ names, ∀ y ∈ names, seat x = seat y → x = y
  found : ∀ x ∈ names, ∃ f : Found, d.find true (Path.join dir x) = .ok f ∧ f.place = seat x

theorem seats_of_unlinked {P : Place} (hdir : d.find true (Path.clean dir) = .ok (.node P .directory))
    (hnames : ∀ x ∈ names, FileName x ∧ (Path.join dir x).length < maxPath)
    (hlink : ∀ x ∈ names, ∀ target, d.node? (P ++ [x]) ≠ some (.link target)) :
    Seats dir names (fun x => P ++ [x]) d := by
  refine ⟨fun x _ y _ heq => by simpa using heq, fun x hx => ?_⟩
  obtain ⟨hname, hroom⟩ := hnames x hx
  have hfree := hname.plain.names hname.short
  cases hn : d.node? (P ++ [x]) with
  | none =>
    exact ⟨_, find_join hdir hname hroom fun links => .vacant (node?_of_find hdir) hfree hn (by simp), rfl⟩
  | some n =>
    have hnode : ∀ target, n ≠ .link target := fun target heq => hlink x hx target (heq ▸ hn)
    exact ⟨_, find_join hdir hname hroom fun links => .down (node?_of_find hdir) hfree hn hnode (.here hn), rfl⟩

/-- A file that is written under one of the names is found under this name, and the others show what they showed. -/
theorem Seats.store (h : Seats dir names seat d) (hx : x ∈ names)
    (hstored : d.store (Path.join dir x) content = .ok d') :
    Seats dir names seat d' ∧ ∀ y ∈ names, d'.contents (Path.join dir y) =
      if y = x then .ok content else d.contents (Path.join dir y) := by
  obtain ⟨f, hf, hplace⟩ := h.found x hx
  have hself := find_of_store hstored hf
  have hother : ∀ y ∈ names, y ≠ x → ∃ g : Found, d.find true (Path.join dir y) = .ok g ∧
      d'.find true (Path.join dir y) = .ok g ∧ g.place = seat y := by
    intro y hy hne
    obtain ⟨g, hg, hseat⟩ := h.found y hy
    refine ⟨g, hg, find_store_of_ne hstored hf hg fun heq => hne (h.apart y hy x hx ?_), hseat⟩
    rw [← hseat, heq, hplace]
  refine ⟨⟨h.apart, fun y hy => ?_⟩, fun y hy => ?_⟩
  · by_cases hyx : y = x
    · subst hyx
      exact ⟨_, hself, hplace⟩
    · obtain ⟨g, -, hg, hseat⟩ := hother y hy hyx
      exact ⟨g, hg, hseat⟩
  · split
    · rename_i hyx
      subst hyx
      exact contents_of_find hself
    · rename_i hyx
      obtain ⟨g, hg, hg', -⟩ := hother y hy hyx
      rw [contents, contents, inspect, inspect, hg, hg']

theorem Direct.isSome_of_find {P q : Place} {n : Node} (h : d.Direct dir)
    (hdir : d.find true dir = .ok (.node P .directory)) (hx : Path.Plain x)
    (hf : d.find true (Path.join dir x) = .ok (.node q n)) : (d.node? (P ++ [x])).isSome = true := by
  obtain ⟨links, hlast⟩ := h.leads_join hdir hx hf
  cases hlast with
  | stay _ hc => exact absurd hc (not_or.2 ⟨hx.ne_nil, hx.ne_dot⟩)
  | up => exact absurd rfl hx.ne_dotDot
  | down _ _ hn | jump _ _ hn | link _ _ hn =>
    rw [hn]
    rfl

end Disk

namespace Command

variable {dir : Path} {names : List Bytes} {seat : Bytes → Place} {files : List (Bytes × Bytes)} {w w' : World}

/-! ## Files one after another -/

theorem run_extractFile_ok {path : Path} {data : Bytes} (h : (extractFile path data).run.run w = (.ok (), w')) :
    w.disk.store path data = .ok w'.disk := by
  obtain ⟨_, w₁, hwrite, hprint⟩ := Step.run_bind_ok h
  rw [run_lift, Action.run_perform] at hwrite
  cases hstored : w.disk.store path data with
  | error e =>
    rw [hstored] at hwrite
    cases hwrite
  | ok d =>
    rw [hstored] at hwrite
    cases hwrite
    cases hprint
    rfl

theorem run_extractFiles_keeps {I : Disk → Prop}
    (hstep : ∀ f ∈ files, ∀ d d', I d → d.store (Path.join dir f.1) f.2 = .ok d' → I d')
    (h : (extractFiles dir files).run.run w = (.ok (), w')) (hw : I w.disk) : I w'.disk := by
  induction files generalizing w with
  | nil =>
    cases h
    exact hw
  | cons f files ih =>
    obtain ⟨_, w₁, hfirst, hrest⟩ := Step.run_bind_ok (x := extractFile (Path.join dir f.1) f.2) h
    refine ih (fun g hg => hstep g (List.mem_cons_of_mem _ hg)) hrest ?_
    exact hstep f List.mem_cons_self _ _ hw (run_extractFile_ok hfirst)

/-- What was written last under a name. -/
def latest? (files : List (Bytes × Bytes)) (x : Bytes) : Option Bytes := files.reverse.lookup x

theorem latest?_cons (f : Bytes × Bytes) (files : List (Bytes × Bytes)) (x : Bytes) :
    latest? (f :: files) x = (latest? files x).or (if x = f.1 then some f.2 else none) := by
  obtain ⟨name, data⟩ := f
  rw [latest?, List.reverse_cons, List.lookup_append, latest?]
  congr 1
  by_cases hx : x = name <;> simp [List.lookup_cons, hx, beq_eq_false_iff_ne.2]

theorem latest?_map {α : Type} (l : List α) (name data : α → Bytes) (x : Bytes) :
    latest? (l.map fun a => (name a, data a)) x = (l.reverse.find? fun a => name a = x).map data := by
  rw [latest?, ← List.map_reverse]
  induction l.reverse with
  | nil => rfl
  | cons a l ih =>
    by_cases hx : x = name a
    · simp [hx]
    · simp [List.lookup_cons, beq_eq_false_iff_ne.2 hx, Ne.symm hx, ih]

theorem run_extractFiles_ok (h : (extractFiles dir files).run.run w = (.ok (), w'))
    (hnames : ∀ f ∈ files, f.1 ∈ names) (hw : Disk.Seats dir names seat w.disk) {x : Bytes} (hx : x ∈ names) :
    w'.disk.contents (Path.join dir x) = ((latest? files x).map .ok).getD (w.disk.contents (Path.join dir x)) := by
  induction files generalizing w with
  | nil =>
    cases h
    rfl
  | cons f files ih =>
    obtain ⟨_, w₁, hfirst, hrest⟩ := Step.run_bind_ok (x := extractFile (Path.join dir f.1) f.2) h
    obtain ⟨hseats, hshown⟩ := hw.store (hnames f List.mem_cons_self) (run_extractFile_ok hfirst)
    rw [ih hrest (fun g hg => hnames g (List.mem_cons_of_mem _ hg)) hseats, hshown x hx, latest?_cons]
    cases latest? files x with
    | some code => rfl
    | none => split <;> rfl

end Command

/-! ## The files of an artifact -/

namespace Artifact

variable {f : File}

def File.metadataFile (f : File) : Bytes := f.metadata.shaderName.lower ++ ".json"

def File.stageFile (f : File) (st : Stage) : Bytes := Command.stageFile f.metadata.shaderName.lower f.dialect st

def File.fileNames (f : File) : List Bytes :=
  f.metadataFile :: f.metadata.stageTable.toList.map fun e => f.stageFile e.2

def File.entryPoints (f : File) : List Bytes := f.metadata.stageTable.toList.map (·.2.entryPoint)

/-- The last stage in order that has an entry point. -/
def File.lastStage? (f : File) (entry : Bytes) : Option (StageKind × Stage) :=
  f.metadata.stageTable.ordered.reverse.find? (·.2.entryPoint = entry)

def File.code (f : File) (kind : StageKind) : Bytes := (f.stageBytecode? kind).getD []

def File.files (f : File) (text : Bytes) : List (Bytes × Bytes) :=
  (f.metadataFile, text) :: f.metadata.stageTable.ordered.map fun e => (f.stageFile e.2, f.code e.1)

/-- No bytecode is lost: the names of the files are different, and each file in the directory holds what it is for. -/
structure File.Retained (f : File) (dir : Path) (d : Disk) : Prop where
  distinct : f.fileNames.Nodup
  metadata : ∃ text, f.metadata.indentedText = .ok text ∧ d.contents (Path.join dir f.metadataFile) = .ok text
  stages : ∀ e ∈ f.metadata.stageTable.toList, ∃ code, f.stageBytecode? e.1 = some code ∧
    d.contents (Path.join dir (f.stageFile e.2)) = .ok code

theorem stageFile_inj {st st' : Stage} (h : f.stageFile st = f.stageFile st') : st.entryPoint = st'.entryPoint :=
  List.append_cancel_left (List.append_cancel_right h)

theorem stageFile_ne_metadataFile (st : Stage) : f.stageFile st ≠ f.metadataFile := by
  have hext : ∀ dialect, Command.bytecodeExt dialect ≠ [] ∧
      (Command.bytecodeExt dialect).getLast? ≠ (utf8 ".json").getLast? := by
    intro dialect
    unfold Command.bytecodeExt
    split <;> decide
  intro h
  refine (hext f.dialect).2 ?_
  calc (Command.bytecodeExt f.dialect).getLast?
      = (f.stageFile st).getLast? := (List.getLast?_append_of_ne_nil _ (hext f.dialect).1).symm
    _ = f.metadataFile.getLast? := by rw [h]
    _ = (utf8 ".json").getLast? := List.getLast?_append_of_ne_nil _ (by decide)

theorem nodup_fileNames_iff : f.fileNames.Nodup ↔ f.entryPoints.Nodup := by
  let name (entry : Bytes) : Bytes :=
    f.metadata.shaderName.lower ++ "." ++ entry ++ Command.bytecodeExt f.dialect
  have hinjective : Function.Injective name := fun _ _ hab => List.append_cancel_left (List.append_cancel_right hab)
  have hnames : (f.metadata.stageTable.toList.map fun e => f.stageFile e.2) = f.entryPoints.map name := by
    rw [File.entryPoints, List.map_map]
    rfl
  rw [File.fileNames, List.nodup_cons, hnames, List.nodup_map_iff hinjective, ← hnames]
  refine and_iff_right fun hmem => ?_
  obtain ⟨e, -, heq⟩ := List.mem_map.1 hmem
  exact stageFile_ne_metadataFile e.2 heq

theorem stageBytecode?_eq_code {data : Bytes} (h : decode data = .ok f) {e : StageKind × Stage}
    (he : e ∈ f.metadata.stageTable.toList) : f.stageBytecode? e.1 = some (f.code e.1) := by
  obtain ⟨hcontainer, hcode, -⟩ := decode_eq_ok_iff.1 h
  have hone : f.OneToOne := by
    refine oneToOne_of_checkBuffers hcode ?_
    rw [hcode, binaries_length]
    exact hcontainer.stages
  obtain ⟨code, hsome⟩ := Option.isSome_iff_exists.1 ((hone.present e.1).2 (List.mem_map_of_mem he))
  rw [File.code, hsome, Option.getD_some]

end Artifact

namespace Command

variable {w w' : World} {path : Path} {rest : List Bytes} {f : Artifact.File}

theorem extractStages_eq_extractFiles {dir : Path} {stages : List (StageKind × Stage)}
    (h : ∀ e ∈ stages, f.stageBytecode? e.1 = some (f.code e.1)) :
    extractStages f dir f.metadata.shaderName.lower stages =
      extractFiles dir (stages.map fun e => (f.stageFile e.2, f.code e.1)) := by
  have hcodes : List.Forall₂ (fun e code => f.stageBytecode? e.1 = some code) stages (stages.map fun e => f.code e.1) := by
    rw [List.forall₂_map_right_iff, List.forall₂_same]
    exact h
  rw [extractStages_eq dir _ hcodes, stageFiles, List.zip, List.zipWith_map_right, List.zipWith_self, List.map_map]
  rfl

theorem extractFrom_eq_ok {dir : Path}
    (hcodes : ∀ e ∈ f.metadata.stageTable.toList, f.stageBytecode? e.1 = some (f.code e.1))
    (h : (extractFrom path dir f).run.run w = (.ok (), w')) : ¬ Unfit f ∧ ∃ text,
      f.metadata.indentedText = .ok text ∧ (extractFiles dir (f.files text)).run.run w = (.ok (), w') := by
  have hfit : ¬ Unfit f := by
    intro hunfit
    obtain ⟨e, he⟩ := run_extractFrom_of_unfit hunfit path dir w
    rw [he] at h
    cases h
  obtain ⟨hname, hentries⟩ := not_or.1 hfit
  rw [not_not] at hname
  have hentries' : ∀ e ∈ f.metadata.stageTable.toList, checkName e.2.entryPoint = .ok () := by
    intro e he
    by_contra hentry
    exact hentries ⟨e, he, hentry⟩
  unfold extractFrom at h
  rw [Step.run_bind, run_require, hname] at h
  dsimp only [Except.mapError] at h
  rw [Step.run_bind, run_forM_require hentries'] at h
  dsimp only at h
  rw [Step.run_bind, run_require] at h
  cases htext : f.metadata.indentedText with
  | error e =>
    rw [htext] at h
    cases h
  | ok text =>
    rw [htext] at h
    dsimp only [Except.mapError] at h
    have hordered : ∀ e ∈ f.metadata.stageTable.ordered, f.stageBytecode? e.1 = some (f.code e.1) :=
      fun e he => hcodes e ((sortBy_perm _).mem_iff.1 he)
    rw [extractStages_eq_extractFiles hordered] at h
    exact ⟨hfit, text, rfl, h⟩

/-- If the command succeeds, the directory was made and all files of the artifact were written. -/
theorem extract_eq_ok (hload : Artifact.load w.disk path = .ok f)
    (hrun : (extract (path :: rest)).run.run w = (.ok (), w')) :
    ¬ Unfit f ∧ (w.disk.mkdirAll (rest.headD ".")).2 = .ok () ∧ ∃ text, f.metadata.indentedText = .ok text ∧
      (extractFiles (rest.headD ".") (f.files text)).run.run { w with disk := (w.disk.mkdirAll (rest.headD ".")).1 } =
        (.ok (), w') := by
  rcases run_extract_cases w path rest with ⟨e, hload', -⟩ | ⟨f', hload', ⟨e, hrun'⟩ | ⟨hmade, hrun'⟩⟩
  · rw [hload] at hload'
    cases hload'
  · rw [hrun] at hrun'
    cases hrun'
  · rw [hload] at hload'
    cases hload'
    rw [hrun] at hrun'
    obtain ⟨_, -, hdecode⟩ := Artifact.decode_of_load hload
    obtain ⟨hfit, hfiles⟩ := extractFrom_eq_ok (fun e he => Artifact.stageBytecode?_eq_code hdecode he) hrun'.symm
    exact ⟨hfit, hmade, hfiles⟩

end Command

namespace Artifact

variable {f : File}

/-- Under the name of a stage, the bytecode of the last stage with its entry point is written last. -/
theorem latest?_stageFile {e : StageKind × Stage} (he : e ∈ f.metadata.stageTable.toList) (text : Bytes) :
    ∃ last, f.lastStage? e.2.entryPoint = some last ∧
      Command.latest? (f.files text) (f.stageFile e.2) = some (f.code last.1) := by
  have hsame : (f.metadata.stageTable.ordered.reverse.find? fun e' => f.stageFile e'.2 = f.stageFile e.2) =
      f.lastStage? e.2.entryPoint := by
    refine congrArg (fun p => f.metadata.stageTable.ordered.reverse.find? p) (funext fun e' => ?_)
    rw [decide_eq_decide]
    refine ⟨stageFile_inj, fun heq => ?_⟩
    rw [File.stageFile, File.stageFile, Command.stageFile, Command.stageFile, heq]
  have hmem : e ∈ f.metadata.stageTable.ordered.reverse := List.mem_reverse.2 ((sortBy_perm _).mem_iff.2 he)
  cases hlast : f.lastStage? e.2.entryPoint with
  | none => exact absurd (decide_eq_true rfl) (List.find?_eq_none.1 hlast e hmem)
  | some last =>
    refine ⟨last, rfl, ?_⟩
    rw [File.files, Command.latest?_cons, Command.latest?_map, hsame, hlast]
    rfl

theorem latest?_metadataFile (text : Bytes) : Command.latest? (f.files text) f.metadataFile = some text := by
  have hnone : (f.metadata.stageTable.ordered.reverse.find? fun e => f.stageFile e.2 = f.metadataFile) = none := by
    refine List.find?_eq_none.2 fun e _ => ?_
    simpa using stageFile_ne_metadataFile e.2
  rw [File.files, Command.latest?_cons, Command.latest?_map, hnone, if_pos rfl]
  rfl

theorem mem_lastStage? {entry : Bytes} {last : StageKind × Stage} (h : f.lastStage? entry = some last) :
    last ∈ f.metadata.stageTable.toList ∧ last.2.entryPoint = entry := by
  refine ⟨(sortBy_perm _).mem_iff.1 (List.mem_reverse.1 (List.mem_of_find?_eq_some h)), ?_⟩
  simpa using List.find?_some h

theorem plain_of_mem_fileNames (h : ¬ Command.Unfit f) {x : Bytes} (hx : x ∈ f.fileNames) : Path.Plain x := by
  obtain ⟨hname, hentries⟩ := not_or.1 h
  rw [not_not] at hname
  rcases List.mem_cons.1 hx with rfl | hx
  · exact Command.plain_json hname
  · obtain ⟨e, he, rfl⟩ := List.mem_map.1 hx
    refine Command.plain_stageFile hname ?_ _
    by_contra hentry
    exact hentries ⟨e, he, hentry⟩

theorem fst_mem_fileNames {text : Bytes} {x : Bytes × Bytes} (hx : x ∈ f.files text) : x.1 ∈ f.fileNames := by
  rcases List.mem_cons.1 hx with rfl | hx
  · exact List.mem_cons_self
  · obtain ⟨e, he, rfl⟩ := List.mem_map.1 hx
    exact List.mem_cons_of_mem _ (List.mem_map.2 ⟨e, (sortBy_perm _).mem_iff.1 he, rfl⟩)

/-! ## What is left of them -/

section Extracted

variable {dir : Path} {seat : Bytes → Place} {data text : Bytes} {w w' : World}

theorem contents_of_latest? (hfiles : (Command.extractFiles dir (f.files text)).run.run w = (.ok (), w'))
    (hseats : Disk.Seats dir f.fileNames seat w.disk) {x code : Bytes} (hx : x ∈ f.fileNames)
    (hcode : Command.latest? (f.files text) x = some code) : w'.disk.contents (Path.join dir x) = .ok code := by
  rw [Command.run_extractFiles_ok hfiles (fun _ => fst_mem_fileNames) hseats hx, hcode]
  rfl

theorem contents_metadataFile (hfiles : (Command.extractFiles dir (f.files text)).run.run w = (.ok (), w'))
    (hseats : Disk.Seats dir f.fileNames seat w.disk) :
    w'.disk.contents (Path.join dir f.metadataFile) = .ok text :=
  contents_of_latest? hfiles hseats List.mem_cons_self (latest?_metadataFile text)

/-- The file of a stage holds the bytecode of the last stage with its entry point. -/
theorem contents_stageFile (hdecode : decode data = .ok f)
    (hfiles : (Command.extractFiles dir (f.files text)).run.run w = (.ok (), w'))
    (hseats : Disk.Seats dir f.fileNames seat w.disk) {e : StageKind × Stage}
    (he : e ∈ f.metadata.stageTable.toList) :
    ∃ last code, f.lastStage? e.2.entryPoint = some last ∧ f.stageBytecode? last.1 = some code ∧
      w'.disk.contents (Path.join dir (f.stageFile e.2)) = .ok code := by
  obtain ⟨last, hlast, hlatest⟩ := latest?_stageFile he text
  have hname : f.stageFile e.2 ∈ f.fileNames := List.mem_cons_of_mem _ (List.mem_map.2 ⟨e, he, rfl⟩)
  exact ⟨last, _, hlast, stageBytecode?_eq_code hdecode (mem_lastStage? hlast).1,
    contents_of_latest? hfiles hseats hname hlatest⟩

theorem retained_iff (hdecode : decode data = .ok f) (htext : f.metadata.indentedText = .ok text)
    (hfiles : (Command.extractFiles dir (f.files text)).run.run w = (.ok (), w'))
    (hseats : Disk.Seats dir f.fileNames seat w.disk) : f.Retained dir w'.disk ↔ f.entryPoints.Nodup := by
  constructor
  · intro h
    exact nodup_fileNames_iff.1 h.distinct
  · intro hnodup
    refine ⟨nodup_fileNames_iff.2 hnodup, ⟨text, htext, contents_metadataFile hfiles hseats⟩, fun e he => ?_⟩
    obtain ⟨last, code, hlast, hcode, hcontents⟩ := contents_stageFile hdecode hfiles hseats he
    obtain ⟨hmem, hentry⟩ := mem_lastStage? hlast
    obtain rfl := List.inj_on_of_nodup_map hnodup hmem he hentry
    exact ⟨code, hcode, hcontents⟩

/-- Where no link turns the path of the directory elsewhere, all files are entries of it. -/
theorem isSome_of_extracted (hfit : ¬ Command.Unfit f) (hdecode : decode data = .ok f)
    (hfiles : (Command.extractFiles dir (f.files text)).run.run w = (.ok (), w'))
    (hseats : Disk.Seats dir f.fileNames seat w.disk) (hdirect : w.disk.Direct dir) {P : Place}
    (hdir : w.disk.find true dir = .ok (.node P .directory)) :
    w'.disk.find true dir = .ok (.node P .directory) ∧
      ∀ x ∈ f.fileNames, (w'.disk.node? (P ++ [x])).isSome = true := by
  obtain ⟨hdirect', hdir'⟩ := Command.run_extractFiles_keeps (I := fun d => d.Direct dir ∧
    d.find true dir = .ok (.node P .directory))
    (fun _ _ d d' hd hstored => ⟨hd.1.store hstored, Disk.find_directory_store hstored hd.2⟩) hfiles ⟨hdirect, hdir⟩
  refine ⟨hdir', fun x hx => ?_⟩
  have hheld : ∃ code, w'.disk.contents (Path.join dir x) = .ok code := by
    rcases List.mem_cons.1 hx with rfl | hx
    · exact ⟨text, contents_metadataFile hfiles hseats⟩
    · obtain ⟨e, he, rfl⟩ := List.mem_map.1 hx
      obtain ⟨_, code, -, -, hcontents⟩ := contents_stageFile hdecode hfiles hseats he
      exact ⟨code, hcontents⟩
  obtain ⟨code, hcode⟩ := hheld
  obtain ⟨q, time, hfound⟩ := Disk.find_of_contents hcode
  exact hdirect'.isSome_of_find hdir' (plain_of_mem_fileNames hfit hx) hfound

end Extracted

end Artifact

/-- An artifact is extracted to a directory in which its names lead to different places. If the command succeeds, the
file of each stage holds the bytecode of the last stage with the same entry point, so that all bytecode is retained
exactly if no entry point occurs twice. All files are entries of the directory, unless a link turns the path of the
directory elsewhere. -/
theorem extract_retains {w w' : World} {path : Path} {rest : List Bytes} {f : Artifact.File} {seat : Bytes → Place}
    (hload : Artifact.load w.disk path = .ok f) (hrun : (Command.extract (path :: rest)).run.run w = (.ok (), w'))
    (hseats : Disk.Seats (rest.headD ".") f.fileNames seat (w.disk.mkdirAll (rest.headD ".")).1) :
    (∀ e ∈ f.metadata.stageTable.toList, ∃ last code, f.lastStage? e.2.entryPoint = some last ∧
      f.stageBytecode? last.1 = some code ∧
      w'.disk.contents (Path.join (rest.headD ".") (f.stageFile e.2)) = .ok code) ∧
    (f.Retained (rest.headD ".") w'.disk ↔ f.entryPoints.Nodup) ∧
    (w.disk.Direct (rest.headD ".") → ∃ P, w'.disk.find true (rest.headD ".") = .ok (.node P .directory) ∧
      ∀ x ∈ f.fileNames, (w'.disk.node? (P ++ [x])).isSome = true) := by
  obtain ⟨hfit, hmade, text, htext, hfiles⟩ := Command.extract_eq_ok hload hrun
  obtain ⟨_, -, hdecode⟩ := Artifact.decode_of_load hload
  generalize rest.headD "." = dir at *
  refine ⟨fun e he => Artifact.contents_stageFile hdecode hfiles hseats he,
    Artifact.retained_iff hdecode htext hfiles hseats, fun hdirect => ?_⟩
  have hsprouts := Disk.sprouts_mkdirAll w.disk dir
  have hdirect' : (w.disk.mkdirAll dir).1.Direct dir := hdirect.of_links hsprouts.cwd fun _ _ => hsprouts.links
  obtain ⟨P, hP⟩ := Disk.find_of_mkdirAll hmade
  exact ⟨P, Artifact.isSome_of_extracted hfit hdecode hfiles hseats hdirect' hP⟩

/-- An artifact of two stages with these entry points, whose bytecode is `1` and `2`. -/
def pairArtifact (vertex pixel : Bytes) : Bytes :=
  let stage (entry buffer : Bytes) : Bytes :=
    "\x7b\"entryPoint\":\"" ++ entry ++ "\",\"buffer\":" ++ buffer ++ "\x7d"
  let metadata : Bytes := "\x7b\"shaderName\":\"Aa\",\"stages\":\x7b\"VERTEX_SHADER\":" ++ stage vertex "0" ++
    ",\"PIXEL_SHADER\":" ++ stage pixel "1" ++ "\x7d\x7d"
  Artifact.frame .dxil ([⟨.json, metadata⟩, ⟨.binary, [1]⟩, ⟨.binary, [2]⟩].flatMap Artifact.chunkBytes)

/-- A tree that holds the artifact and an empty directory. -/
def pairWorld (vertex pixel : Bytes) : World :=
  { disk := { nodes := [([utf8 "a.bin"], .file (pairArtifact vertex pixel) 0), ([utf8 "out"], .directory)] } }

set_option maxRecDepth 2000 in
/-- Two entry points make two files. -/
theorem extract_retains_both :
    ∃ f w' P, Artifact.load (pairWorld "vs" "ps").disk "/a.bin" = .ok f ∧
      (Command.extract [utf8 "/a.bin", utf8 "/out"]).run.run (pairWorld "vs" "ps") = (.ok (), w') ∧
      f.entryPoints = [utf8 "vs", utf8 "ps"] ∧ f.Retained "/out" w'.disk ∧
      w'.disk.find true "/out" = .ok (.node P .directory) ∧ ∀ x ∈ f.fileNames, (w'.disk.node? (P ++ [x])).isSome = true := by
  -- evaluated together, since the run of the command reads the artifact too
  have heval : ((Artifact.load (pairWorld "vs" "ps").disk "/a.bin").toOption.map fun f => (f.fileNames, f.entryPoints),
      ((Command.extract [utf8 "/a.bin", utf8 "/out"]).run.run (pairWorld "vs" "ps")).1,
      (pairWorld "vs" "ps").disk.find true "/out") =
    (some ([utf8 "aa.json", utf8 "aa.vs.dxil", utf8 "aa.ps.dxil"], [utf8 "vs", utf8 "ps"]), .ok (),
      .ok (.node [utf8 "out"] .directory)) := by cbv
  obtain ⟨hread, hrest⟩ := Prod.mk.inj heval
  obtain ⟨hok, hdir⟩ := Prod.mk.inj hrest
  generalize hrun : (Command.extract [utf8 "/a.bin", utf8 "/out"]).run.run (pairWorld "vs" "ps") = r at hok
  obtain ⟨_, w'⟩ := r
  cases hok
  cases hf : Artifact.load (pairWorld "vs" "ps").disk "/a.bin" with
  | error e =>
    rw [hf] at hread
    cases hread
  | ok f =>
    rw [hf] at hread
    obtain ⟨hnames, hentries⟩ := Prod.mk.inj (Option.some.inj hread)
    have hseats : Disk.Seats "/out" f.fileNames (fun x => [utf8 "out"] ++ [x])
        ((pairWorld "vs" "ps").disk.mkdirAll "/out").1 := by
      rw [Disk.mkdirAll_of_find hdir]
      refine Disk.seats_of_unlinked hdir (by rw [hnames]; decide) fun x _ target hx => ?_
      have hmem := Disk.mem_nodes (by simp) hx
      simp [pairWorld] at hmem
    obtain ⟨-, hretained, hinside⟩ := extract_retains hf hrun hseats
    obtain ⟨P, hP, hentry⟩ := hinside (.inr (by decide))
    exact ⟨f, w', P, rfl, rfl, hentries, hretained.2 (by rw [hentries]; decide), hP, hentry⟩

set_option maxRecDepth 2000 in
/-- One entry point of two stages makes one file, and no file is left with the bytecode of the first stage. -/
theorem extract_overwrites :
    ∃ f w', Artifact.load (pairWorld "main" "main").disk "/a.bin" = .ok f ∧
      (Command.extract [utf8 "/a.bin", utf8 "/out"]).run.run (pairWorld "main" "main") = (.ok (), w') ∧
      f.stageBytecode? .vertex = some [1] ∧ f.stageBytecode? .pixel = some [2] ∧
      ∀ e ∈ w'.disk.nodes, ∀ time, e.2 ≠ .file [1] time := by
  have heval : ((Artifact.load (pairWorld "main" "main").disk "/a.bin").toOption.map
        fun f => (f.stageBytecode? .vertex, f.stageBytecode? .pixel),
      (fun r : Except CommandError Unit × World => (r.1, r.2.disk.nodes.all fun e => e.2 ≠ .file [1] e.2.modified))
        ((Command.extract [utf8 "/a.bin", utf8 "/out"]).run.run (pairWorld "main" "main"))) =
    (some (some [1], some [2]), .ok (), true) := by cbv
  obtain ⟨hread, hlost⟩ := Prod.mk.inj heval
  generalize hrun : (Command.extract [utf8 "/a.bin", utf8 "/out"]).run.run (pairWorld "main" "main") = r at hlost
  obtain ⟨_, w'⟩ := r
  obtain ⟨rfl, hnodes⟩ := Prod.mk.inj hlost
  cases hf : Artifact.load (pairWorld "main" "main").disk "/a.bin" with
  | error e =>
    rw [hf] at hread
    cases hread
  | ok f =>
    rw [hf] at hread
    obtain ⟨hvertex, hpixel⟩ := Prod.mk.inj (Option.some.inj hread)
    refine ⟨f, w', rfl, rfl, hvertex, hpixel, fun e he time heq => ?_⟩
    have hother := List.all_eq_true.1 hnodes e he
    rw [heq] at hother
    exact of_decide_eq_true hother rfl

end ShaderForge
