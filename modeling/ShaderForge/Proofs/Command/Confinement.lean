import Mathlib
import ShaderForge.Proofs.Command.Extraction
import ShaderForge.Proofs.Files.LinkFree
import ShaderForge.Proofs.Text.Case

/-!
# ShaderForge.Proofs.Command.Confinement

Extraction stays inside its directory.

* `Command.Confines`         — a command that writes files to one directory only.
* `Command.run_forM_require_error` — a list of checks one of which fails.
* `extract_confined`         — whatever the artifact, its files are written to the directory; with an unfit name in it,
  none is written.
-/

namespace ShaderForge

namespace Command

variable {ε α β : Type} {dir : Path} {P : Place}

/-- The command writes files to the directory only, and leaves it as it was otherwise. -/
def Confines (dir : Path) (P : Place) (c : Command α) : Prop :=
  ∀ w : World, w.disk.Bare dir P →
    (c.run.run w).2.disk.Bare dir P ∧ w.disk.Filled P (c.run.run w).2.disk

theorem Confines.pure (a : α) : Confines dir P (Pure.pure a : Command α) := fun w h => ⟨h, .refl P w.disk⟩

theorem Confines.bind {c : Command α} {next : α → Command β} (hc : Confines dir P c)
    (hnext : ∀ a, Confines dir P (next a)) : Confines dir P (c >>= next) := by
  intro w h
  obtain ⟨hbare, hfilled⟩ := hc w h
  rw [Step.run_bind]
  cases hrun : c.run.run w with
  | mk r w₁ =>
    rw [hrun] at hbare hfilled
    cases r with
    | error e => exact ⟨hbare, hfilled⟩
    | ok a =>
      obtain ⟨hbare', hfilled'⟩ := hnext a w₁ hbare
      exact ⟨hbare', hfilled.trans hfilled'⟩

theorem confines_require (error : ε → CommandError) (r : Except ε α) : Confines dir P (require error r) := by
  intro w h
  rw [run_require]
  exact ⟨h, .refl P w.disk⟩

theorem confines_forM {l : List α} {c : α → Command Unit} (h : ∀ a ∈ l, Confines dir P (c a)) :
    Confines dir P (l.forM c) := by
  induction l with
  | nil => exact .pure ()
  | cons a l ih => exact (h a List.mem_cons_self).bind fun _ => ih fun b hb => h b (List.mem_cons_of_mem _ hb)

theorem confines_extractFile {x : Bytes} (hx : Path.Plain x) (data : Bytes) :
    Confines dir P (extractFile (Path.join dir x) data) := by
  refine Confines.bind (fun w h => ?_) fun _ w h => ⟨h, .refl P w.disk⟩
  rw [run_lift, Action.run_perform]
  cases hstored : w.disk.store (Path.join dir x) data with
  | error e => exact ⟨h, .refl P w.disk⟩
  | ok d => exact h.store hx hstored

theorem confines_extractStages {f : Artifact.File} {stem : Bytes} {stages : List (StageKind × Stage)}
    (h : ∀ e ∈ stages, Path.Plain (stem ++ "." ++ e.2.entryPoint ++ bytecodeExt f.dialect)) :
    Confines dir P (extractStages f dir stem stages) := by
  induction stages with
  | nil => exact .pure ()
  | cons e stages ih =>
    obtain ⟨kind, st⟩ := e
    have hrest : Confines dir P (extractStages f dir stem stages) := ih fun e he => h e (List.mem_cons_of_mem _ he)
    rw [extractStages]
    cases f.stageBytecode? kind with
    | none => exact hrest
    | some code => exact (confines_extractFile (h _ List.mem_cons_self) code).bind fun _ => hrest

/-! ## Names of files -/

theorem slash_of_checkName {name : Bytes} (h : checkName name = .ok ()) : Bytes.slash ∉ name := by
  unfold checkName at h
  split at h
  · cases h
  split at h
  · cases h
  · rename_i hsep
    simp only [Bool.or_eq_true, decide_eq_true_eq, not_or] at hsep
    exact hsep.1

theorem plain_json {name : Bytes} (h : checkName name = .ok ()) : Path.Plain (name.lower ++ ".json") :=
  plain_append (fun hmem => slash_of_checkName h (Bytes.slash_mem_lower hmem)) (by decide) (by decide)

theorem plain_stageFile {name entry : Bytes} (h : checkName name = .ok ()) (hentry : checkName entry = .ok ())
    (dialect : Dialect) : Path.Plain (name.lower ++ "." ++ entry ++ bytecodeExt dialect) := by
  have hext : 2 < (bytecodeExt dialect).length ∧ Bytes.slash ∉ bytecodeExt dialect := by
    unfold bytecodeExt
    split <;> decide
  refine plain_append ?_ hext.1 hext.2
  rw [List.mem_append, List.mem_append, not_or, not_or]
  exact ⟨⟨fun hmem => slash_of_checkName h (Bytes.slash_mem_lower hmem), by decide⟩, slash_of_checkName hentry⟩

/-! ## The command -/

theorem run_forM_require_error {error : ε → CommandError} {check : α → Except ε Unit} {l : List α}
    (h : ∃ a ∈ l, check a ≠ .ok ()) (w : World) :
    ∃ e, (l.forM fun a => require error (check a)).run.run w = (.error e, w) := by
  induction l with
  | nil =>
    obtain ⟨a, ha, -⟩ := h
    cases ha
  | cons a l ih =>
    show ∃ e, ((require error (check a) >>= fun _ => l.forM fun a => require error (check a)).run.run w) = (.error e, w)
    rw [Step.run_bind, run_require]
    cases hcheck : check a with
    | error e => exact ⟨error e, rfl⟩
    | ok u =>
      refine ih ?_
      obtain ⟨b, hb, hfail⟩ := h
      rcases List.mem_cons.1 hb with rfl | hb
      · exact absurd hcheck hfail
      · exact ⟨b, hb, hfail⟩

/-- What is done once the directory is there. -/
def extractFrom (path dir : Path) (f : Artifact.File) : Command Unit := do
  require (.shaderName path) (checkName f.metadata.shaderName)
  f.metadata.stageTable.toList.forM fun (_, st) => require (.entryName path) (checkName st.entryPoint)
  let stem := f.metadata.shaderName.lower
  let text ← require .metadata f.metadata.indentedText
  extractFile (Path.join dir (stem ++ ".json")) text
  extractStages f dir stem f.metadata.stageTable.ordered

/-- A name of the artifact is unfit for a file. -/
def Unfit (f : Artifact.File) : Prop :=
  checkName f.metadata.shaderName ≠ .ok () ∨ ∃ e ∈ f.metadata.stageTable.toList, checkName e.2.entryPoint ≠ .ok ()

theorem run_extractFrom_of_unfit {f : Artifact.File} (h : Unfit f) (path dir : Path) (w : World) :
    ∃ e, (extractFrom path dir f).run.run w = (.error e, w) := by
  unfold extractFrom
  rw [Step.run_bind, run_require]
  cases hname : checkName f.metadata.shaderName with
  | error e => exact ⟨.shaderName path e, rfl⟩
  | ok u =>
    have hentry := h.resolve_left (absurd hname)
    dsimp only [Except.mapError]
    rw [Step.run_bind]
    obtain ⟨e, he⟩ := run_forM_require_error hentry w
    exact ⟨e, by rw [he]⟩

theorem confines_extractFrom {f : Artifact.File} (h : ¬ Unfit f) (path : Path) :
    Confines dir P (extractFrom path dir f) := by
  obtain ⟨hname, hentries⟩ := not_or.1 h
  rw [not_not] at hname
  refine (confines_require _ _).bind fun _ => (confines_forM fun _ _ => confines_require _ _).bind fun _ =>
    (confines_require _ _).bind fun text => (confines_extractFile (plain_json hname) text).bind fun _ =>
      confines_extractStages fun e he => plain_stageFile hname ?_ _
  by_contra hentry
  exact hentries ⟨e, (sortBy_perm _).mem_iff.1 he, hentry⟩

/-- The command ends with the artifact that cannot be read, the directory that cannot be made, or what follows. -/
theorem run_extract_cases (w : World) (path : Path) (rest : List Bytes) :
    (∃ e, Artifact.load w.disk path = .error e ∧ ((extract (path :: rest)).run.run w) = (.error (.artifact e), w)) ∨
      ∃ f, Artifact.load w.disk path = .ok f ∧
        ((∃ e, (extract (path :: rest)).run.run w =
            (.error (.directory e), { w with disk := (w.disk.mkdirAll (rest.headD ".")).1 })) ∨
          (w.disk.mkdirAll (rest.headD ".")).2 = .ok () ∧ (extract (path :: rest)).run.run w =
            (extractFrom path (rest.headD ".") f).run.run { w with disk := (w.disk.mkdirAll (rest.headD ".")).1 }) := by
  unfold extract
  dsimp only
  rw [Step.run_bind, run_lift]
  have hlook : (Action.look fun d => Artifact.load d path).run w = (Artifact.load w.disk path, w) := rfl
  rw [hlook]
  cases hload : Artifact.load w.disk path with
  | error e => exact .inl ⟨e, rfl, rfl⟩
  | ok f =>
    refine .inr ⟨f, rfl, ?_⟩
    dsimp only
    rw [Step.run_bind, run_lift]
    have hmade : (Action.performAll fun d => d.mkdirAll (rest.headD ".")).run w =
      ((w.disk.mkdirAll (rest.headD ".")).2, { w with disk := (w.disk.mkdirAll (rest.headD ".")).1 }) := rfl
    rw [hmade]
    cases hresult : (w.disk.mkdirAll (rest.headD ".")).2 with
    | error e => exact .inl ⟨e, rfl⟩
    | ok u => exact .inr ⟨rfl, rfl⟩

end Command

/-- Whatever the artifact, extraction to a directory without links makes and changes files as direct children of the
directory only. If the name of the shader or of an entry point is unfit, it fails, with and without links, and no file is
made or changed. -/
theorem extract_confined (w : World) (path : Path) (rest : List Bytes) :
    (w.disk.LinkFree (rest.headD ".") →
      w.disk.Confined (rest.headD ".") ((Command.extract (path :: rest)).run.run w).2.disk) ∧
    (∀ f, Artifact.load w.disk path = .ok f → Command.Unfit f →
      (∃ e, ((Command.extract (path :: rest)).run.run w).1 = .error e) ∧
        w.disk.Sprouts ((Command.extract (path :: rest)).run.run w).2.disk) := by
  rcases Command.run_extract_cases w path rest with ⟨e, hload, hrun⟩ | ⟨f, hload, ⟨e, hrun⟩ | ⟨hmade, hrun⟩⟩
  · rw [hrun]
    refine ⟨fun _ => .inl (.refl _), fun f hf => ?_⟩
    rw [hload] at hf
    cases hf
  · rw [hrun]
    exact ⟨fun _ => .inl (Disk.sprouts_mkdirAll _ _), fun _ _ _ => ⟨⟨_, rfl⟩, Disk.sprouts_mkdirAll _ _⟩⟩
  · have hunfit : Command.Unfit f → (∃ e, ((Command.extract (path :: rest)).run.run w).1 = .error e) ∧
        w.disk.Sprouts ((Command.extract (path :: rest)).run.run w).2.disk := by
      intro hunfit
      obtain ⟨e, he⟩ := Command.run_extractFrom_of_unfit hunfit path (rest.headD ".")
        { w with disk := (w.disk.mkdirAll (rest.headD ".")).1 }
      rw [hrun, he]
      exact ⟨⟨e, rfl⟩, Disk.sprouts_mkdirAll _ _⟩
    refine ⟨fun hfree => ?_, fun f' hf' => ?_⟩
    · by_cases h : Command.Unfit f
      · exact .inl (hunfit h).2
      · obtain ⟨P, hP⟩ := Disk.find_of_mkdirAll hmade
        obtain ⟨hbare, hfilled⟩ := Command.confines_extractFrom h path
          { w with disk := (w.disk.mkdirAll (rest.headD ".")).1 } (hfree.bare hP)
        rw [hrun]
        exact .inr ⟨P, hbare.directory, ((Disk.sprouts_mkdirAll _ _).filled P).trans hfilled⟩
    · rw [hload] at hf'
      cases hf'
      exact hunfit

/-- An artifact that has no stages. -/
def stagelessArtifact (metadata : Bytes) : Bytes :=
  Artifact.magic ++ Artifact.word (24 + metadata.length.toUInt32) ++ Artifact.word 0 ++ Artifact.word 0 ++
    Artifact.word metadata.length.toUInt32 ++ metadata

/-- A name that fits is extracted by way of a link, a name that leads elsewhere is not extracted. -/
theorem extract_confined_below_link :
    let w : World := { disk := { nodes := [
      ([utf8 "a.bin"], .file (stagelessArtifact (utf8 "\x7b\"shaderName\":\"Aa\"\x7d")) 0),
      ([utf8 "b.bin"], .file (stagelessArtifact (utf8 "\x7b\"shaderName\":\"../Aa\"\x7d")) 0),
      ([utf8 "l"], .link (utf8 "/out")), ([utf8 "out"], .directory), ([utf8 "out", utf8 "m"], .link (utf8 "/"))] } }
    let made := ((Command.extract [utf8 "/a.bin", utf8 "/l/sub"]).run.run w).2.disk
    let refused := (Command.extract [utf8 "/b.bin", utf8 "/l/sub"]).run.run w
    (w.disk.Confined (utf8 "/l/sub") made ∧ (made.node? [utf8 "out", utf8 "sub", utf8 "aa.json"]).isSome = true) ∧
    (∃ f, Artifact.load w.disk (utf8 "/b.bin") = .ok f ∧ Command.Unfit f) ∧
    (∃ e, refused.1 = .error e) ∧ w.disk.Sprouts refused.2.disk := by
  intro w made refused
  have hfree : w.disk.LinkFree (utf8 "/l/sub") := by
    refine ⟨.inr (by decide), fun P hP c target hc => ?_⟩
    have hplace : (w.disk.mkdirAll (utf8 "/l/sub")).1.find true (utf8 "/l/sub") =
      .ok (.node [utf8 "out", utf8 "sub"] .directory) := by cbv
    rw [hplace] at hP
    cases hP
    have hmem := Disk.mem_nodes (by simp) hc
    simp [w] at hmem
  have hload : (Artifact.load w.disk (utf8 "/b.bin")).toOption.map (·.metadata.shaderName) = some (utf8 "../Aa") := by
    cbv
  cases hf : Artifact.load w.disk (utf8 "/b.bin") with
  | error e =>
    rw [hf] at hload
    cases hload
  | ok f =>
    rw [hf] at hload
    have hname : f.metadata.shaderName = utf8 "../Aa" := Option.some.inj hload
    have hunfit : Command.Unfit f := .inl (by rw [hname]; decide)
    have hmade : (((Command.extract [utf8 "/a.bin", utf8 "/l/sub"]).run.run w).2.disk.node?
      [utf8 "out", utf8 "sub", utf8 "aa.json"]).isSome = true := by cbv
    exact ⟨⟨(extract_confined w (utf8 "/a.bin") [utf8 "/l/sub"]).1 hfree, hmade⟩, ⟨f, rfl, hunfit⟩,
      (extract_confined w (utf8 "/b.bin") [utf8 "/l/sub"]).2 f hf hunfit⟩

end ShaderForge
