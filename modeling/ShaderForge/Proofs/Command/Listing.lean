import ShaderForge.Command.Program
import ShaderForge.Proofs.Artifact.Correspondence
import ShaderForge.Proofs.Command.Extraction

/-!
# ShaderForge.Proofs.Command.Listing

What the listing of an artifact comes to, whatever the file holds.

* `Command.listing`      — the lines about an artifact and some of its exports.
* `Command.run_printExports` — exports are listed to their end, or up to one that says nothing.
* `Artifact.File.Indexed` — each stage has bytecode at the place that its buffer tells.
* `Command.Listed`       — how a listing can end.
* `info_listed`          — it ends in no other way, and the program breaks off in one of them only.
-/

namespace ShaderForge

def World.printed (w : World) (ls : List Bytes) : World :=
  { w with stdout := w.stdout ++ ls.flatMap (· ++ [Bytes.lf]) }

theorem World.printed_nil (w : World) : w.printed [] = w := by
  rw [World.printed, List.flatMap_nil, List.append_nil]

theorem World.printed_append (w : World) (ls ls' : List Bytes) : w.printed (ls ++ ls') = (w.printed ls).printed ls' := by
  simp [World.printed]

namespace Command

/-! ## Lines -/

theorem run_printLine (l : Bytes) (w : World) : (printLine l).run.run w = (.ok (), w.printed [l]) := by
  rw [World.printed, List.flatMap_singleton]
  rfl

theorem run_printLines (ls : List Bytes) (w : World) : (printLines ls).run.run w = (.ok (), w.printed ls) := by
  induction ls generalizing w with
  | nil => rw [w.printed_nil]; rfl
  | cons l ls ih =>
    show (printLine l >>= fun _ => printLines ls).run.run w = _
    rw [Step.run_bind, run_printLine]
    dsimp only
    rw [ih, ← World.printed_append]
    rfl

/-- The lines about exports; one that says nothing has none. -/
def exportsLines (exports : List (Bytes × Option Export)) : List Bytes :=
  exports.flatMap fun x => x.2.elim [] (exportLines x.1)

/-- Exports are listed to their end, or up to the first that says nothing. -/
theorem run_printExports (exports : List (Bytes × Option Export)) (w : World) :
    ((∀ x ∈ exports, x.2 ≠ none) ∧ (printExports exports).run.run w = (.ok (), w.printed (exportsLines exports))) ∨
    ∃ shown name rest, exports = shown ++ (name, none) :: rest ∧ (∀ x ∈ shown, x.2 ≠ none) ∧
      (printExports exports).run.run w = (.error (.absentExport name), w.printed (exportsLines shown)) := by
  induction exports generalizing w with
  | nil => exact .inl ⟨by simp, by rw [exportsLines, List.flatMap_nil, w.printed_nil]; rfl⟩
  | cons x exports ih =>
    obtain ⟨name, e⟩ := x
    cases e with
    | none =>
      refine .inr ⟨[], name, exports, rfl, by simp, ?_⟩
      rw [exportsLines, List.flatMap_nil, w.printed_nil]
      rfl
    | some e =>
      have hlines : ∀ l, exportsLines ((name, some e) :: l) = exportLines name e ++ exportsLines l := fun _ => rfl
      have hdescribed : ∀ l : List (Bytes × Option Export), (∀ x ∈ l, x.2 ≠ none) →
          ∀ x ∈ (name, some e) :: l, x.2 ≠ none := fun l hl => by simpa using hl
      have hrun : (printExports ((name, some e) :: exports)).run.run w =
          (printExports exports).run.run (w.printed (exportLines name e)) := by
        rw [printExports, Step.run_bind, run_printLines]
      rw [hrun]
      rcases ih (w.printed (exportLines name e)) with ⟨hall, hlisted⟩ | ⟨shown, absent, rest, rfl, hshown, hlisted⟩
      · refine .inl ⟨hdescribed _ hall, ?_⟩
        rw [hlisted, hlines, World.printed_append]
      · refine .inr ⟨(name, some e) :: shown, absent, rest, rfl, hdescribed _ hshown, ?_⟩
        rw [hlisted, hlines, World.printed_append]

end Command

/-! ## Stages and their bytecode -/

/-- Each stage has bytecode at the place that its buffer tells; its size is the size that is listed. -/
def Artifact.File.Indexed (f : Artifact.File) : Prop :=
  ∀ x ∈ f.metadata.stageTable.ordered, ∃ (i : Nat) (code : Bytes), x.2.buffer = i ∧ f.bytecode[i]? = some code ∧
    Command.stageSize f x.2 = code.length

theorem Artifact.indexed_of_decode {data : Bytes} {f : File} (h : decode data = .ok f) : f.Indexed := by
  obtain ⟨hcontainer, hcode, -⟩ := decode_eq_ok_iff.1 h
  have hcheck := hcontainer.stages
  rw [← binaries_length, ← hcode] at hcheck
  intro x hx
  obtain ⟨hlow, hhigh⟩ := (checkBuffers_eq_ok_iff_bijOn.1 hcheck).mapsTo ((sortBy_perm _).mem_iff.1 hx)
  have hplace : x.2.buffer.toNat < f.bytecode.length := by
    dsimp only at hlow hhigh
    omega
  refine ⟨x.2.buffer.toNat, f.bytecode[x.2.buffer.toNat], (Int.toNat_of_nonneg hlow).symm,
    List.getElem?_eq_getElem hplace, ?_⟩
  rw [Command.stageSize, List.getElem?_eq_getElem hplace, Option.getD_some]

theorem Artifact.decode_of_load {d : Disk} {path : Path} {f : File} (h : load d path = .ok f) :
    ∃ data, d.contents path = .ok data ∧ decode data = .ok f := by
  unfold load at h
  split at h
  · cases h
  · rename_i data hdata
    split at h
    · cases h
    · rename_i hdecode
      cases h
      exact ⟨data, hdata, hdecode⟩

/-! ## Listings -/

namespace Command

/-- The lines about an artifact: what is said of it as a whole, all its stages, and some of its exports. -/
def listing (path : Path) (f : Artifact.File) (exports : List (Bytes × Option Export)) : List Bytes :=
  infoHead path f ++ [utf8 "Stages:"] ++ (f.metadata.stageTable.ordered.flatMap fun x => stageLines f x.1 x.2) ++
    (if 0 < f.metadata.exportTable.size then [[], utf8 "Exports:"] else []) ++ exportsLines exports

/-- How the listing of a file ends: the file is no artifact and nothing is printed, or all that is in it is listed, or
the listing breaks off at an export that says nothing. -/
inductive Listed (w : World) (path : Path) : Except CommandError Unit × World → Prop
  | refused {e : Artifact.LoadError} (h : Artifact.load w.disk path = .error e) : Listed w path (.error (.artifact e), w)
  | complete {f : Artifact.File} (h : Artifact.load w.disk path = .ok f) (hindexed : f.Indexed)
      (hall : ∀ x ∈ f.metadata.exportTable.toList, x.2 ≠ none) :
      Listed w path (.ok (), w.printed (listing path f f.metadata.exportTable.ordered))
  | brokenOff {f : Artifact.File} {shown rest : List (Bytes × Option Export)} {name : Bytes}
      (h : Artifact.load w.disk path = .ok f) (hindexed : f.Indexed)
      (hsplit : f.metadata.exportTable.ordered = shown ++ (name, none) :: rest) (hshown : ∀ x ∈ shown, x.2 ≠ none) :
      Listed w path (.error (.absentExport name), w.printed (listing path f shown))

theorem run_info (path : Path) (rest : List Bytes) {f : Artifact.File} {w : World}
    (h : Artifact.load w.disk path = .ok f) :
    (info (path :: rest)).run.run w =
      (printExports f.metadata.exportTable.ordered).run.run (w.printed (listing path f [])) := by
  have hload : (Action.look fun d => Artifact.load d path).run w = (.ok f, w) := by
    show (Artifact.load w.disk path, w) = _
    rw [h]
  unfold info
  dsimp only
  rw [Step.run_bind, run_lift, hload]
  dsimp only
  rw [Step.run_bind, run_printLines]
  dsimp only
  rw [Step.run_bind, run_printLine]
  dsimp only
  rw [← World.printed_append, Step.run_bind, run_printLines]
  dsimp only
  rw [← World.printed_append]
  by_cases hsize : 0 < f.metadata.exportTable.size
  · rw [if_pos hsize, Step.run_bind, run_printLines]
    dsimp only
    rw [← World.printed_append, listing, if_pos hsize, exportsLines, List.flatMap_nil, List.append_nil]
  · have hnil : f.metadata.exportTable.ordered = [] := by
      have hlength : f.metadata.exportTable.ordered.length = f.metadata.exportTable.size :=
        (sortBy_perm f.metadata.exportTable.toList).length_eq
      exact List.eq_nil_of_length_eq_zero (by omega)
    rw [if_neg hsize, hnil, listing, if_neg hsize, exportsLines, List.flatMap_nil, List.append_nil, List.append_nil]
    rfl

theorem mem_exportTable_iff {f : Artifact.File} {x : Bytes × Option Export} :
    x ∈ f.metadata.exportTable.ordered ↔ x ∈ f.metadata.exportTable.toList := (sortBy_perm _).mem_iff

theorem listing_eq (path : Path) (f : Artifact.File) (exports : List (Bytes × Option Export)) :
    listing path f exports = listing path f [] ++ exportsLines exports := by
  rw [listing, listing, exportsLines, exportsLines, List.flatMap_nil, List.append_nil]

theorem listed_info (w : World) (path : Path) (rest : List Bytes) :
    Listed w path ((info (path :: rest)).run.run w) := by
  cases hload : Artifact.load w.disk path with
  | error e =>
    have hlook : (Action.look fun d => Artifact.load d path).run w = (.error e, w) := by
      show (Artifact.load w.disk path, w) = _
      rw [hload]
    unfold info
    dsimp only
    rw [Step.run_bind, run_lift, hlook]
    exact .refused hload
  | ok f =>
    obtain ⟨_, -, hdecode⟩ := Artifact.decode_of_load hload
    have hindexed := Artifact.indexed_of_decode hdecode
    rw [run_info path rest hload]
    rcases run_printExports f.metadata.exportTable.ordered (w.printed (listing path f [])) with
      ⟨hall, hlisted⟩ | ⟨shown, name, rest, hsplit, hshown, hlisted⟩
    · rw [hlisted, ← World.printed_append, ← listing_eq]
      exact .complete hload hindexed fun x hx => hall x (mem_exportTable_iff.2 hx)
    · rw [hlisted, ← World.printed_append, ← listing_eq]
      exact .brokenOff hload hindexed hsplit hshown

end Command

theorem Program.reportError_eq_crash_iff (name : Bytes) (e : CommandError) (w : World) :
    ((reportError name e).run w).1 = .crash ↔ e.breaksOff = true := by
  unfold reportError
  split
  · exact iff_of_false nofun nofun
  · exact iff_of_false nofun nofun
  · by_cases hbreak : e.breaksOff = true
    · rw [if_pos hbreak]
      exact iff_of_true rfl hbreak
    · rw [if_neg hbreak]
      exact iff_of_false nofun hbreak

theorem Program.run_eq_crash_iff {runner : Runner} {name : Bytes} {args : List Bytes}
    {command : List Bytes → Command Unit} (hcommand : command? runner name = some command) {w : World} :
    ((run runner (name :: args)).run w).1 = .crash ↔
      ∃ e, ((command args).run.run w).1 = .error e ∧ e.breaksOff = true := by
  unfold run
  dsimp only
  rw [hcommand]
  dsimp only
  rw [StateT.run_bind]
  rcases (command args).run.run w with ⟨e | _, w₁⟩
  · rw [show (∃ e', (Except.error e, w₁).1 = Except.error e' ∧ e'.breaksOff = true) ↔ e.breaksOff = true by simp]
    exact reportError_eq_crash_iff name e w₁
  · exact iff_of_false nofun nofun

/-- Whatever a file holds, its listing is refused with the error that reading it gives, or it is complete, unless an
export says nothing. In no other case does the program break off: each stage that is listed has its bytecode. -/
theorem info_listed (runner : Runner) (w : World) (path : Path) (rest : List Bytes) :
    Command.Listed w path ((Command.info (path :: rest)).run.run w) ∧
    (((Program.run runner (utf8 "info" :: path :: rest)).run w).1 = .crash ↔
      ∃ f, Artifact.load w.disk path = .ok f ∧ ∃ x ∈ f.metadata.exportTable.toList, x.2 = none) := by
  have hlisted := Command.listed_info w path rest
  refine ⟨hlisted, ?_⟩
  have hcommand : Program.command? runner (utf8 "info") = some Command.info := rfl
  rw [Program.run_eq_crash_iff hcommand]
  generalize (Command.info (path :: rest)).run.run w = outcome at hlisted
  cases hlisted with
  | refused h => exact iff_of_false (fun ⟨_, rfl, h⟩ => nomatch h) fun ⟨f, hf, _⟩ => by rw [h] at hf; cases hf
  | complete h _ hall =>
    refine iff_of_false nofun fun ⟨f, hf, x, hx, hnone⟩ => ?_
    rw [h] at hf
    cases hf
    exact hall x hx hnone
  | @brokenOff f shown rest name h _ hsplit _ =>
    exact iff_of_true ⟨_, rfl, rfl⟩ ⟨f, h, (name, none), Command.mem_exportTable_iff.1 (by simp [hsplit]), rfl⟩

/-- An artifact without stages whose only export says nothing. -/
def absentExportArtifact : Bytes :=
  Artifact.magic ++ Artifact.word 46 ++ Artifact.word 0 ++ Artifact.word 0 ++ Artifact.word 22 ++
    utf8 "\x7b\"exports\":\x7b\"A\":null\x7d\x7d"

/-- The listing of an artifact that is accepted breaks off before its only export. -/
theorem info_broken_off :
    let w : World := { disk := { nodes := [([utf8 "a.bin"], .file absentExportArtifact 0)] } }
    (∃ f, Artifact.decode absentExportArtifact = .ok f ∧ f.metadata.exportTable.names = [utf8 "A"]) ∧
    ((Program.run (.direct fun _ => {}) ["info", "/a.bin"]).run w).1 = .crash ∧
    ((Program.run (.direct fun _ => {}) ["info", "/a.bin"]).run w).2.stdout =
      utf8 ("Artifact: /a.bin\nShader:   \nFormat:   DXIL\n" ++
        "Size:     46 bytes\nChunks:   1\n\nStages:\n\nExports:\n") := by
  intro w
  have hread : (Artifact.decode absentExportArtifact).toOption.map (·.metadata.exportTable.names) =
      some [utf8 "A"] := by cbv
  refine ⟨?_, by cbv, by cbv⟩
  cases h : Artifact.decode absentExportArtifact with
  | error e =>
    rw [h] at hread
    cases hread
  | ok f =>
    rw [h] at hread
    exact ⟨f, rfl, Option.some.inj hread⟩

end ShaderForge
