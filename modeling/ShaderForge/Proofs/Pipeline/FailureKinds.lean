import Mathlib
import ShaderForge.Proofs.Pipeline.Atomic
import ShaderForge.Proofs.Pipeline.ToolCalls
import ShaderForge.Proofs.Source.FaultPlaces

/-!
# ShaderForge.Proofs.Pipeline.FailureKinds

The kind of a failure tells what failed.

* `Merge.Blames`        — a merge whose errors are all as said; merging never blames the shape of a source.
* `Untargeted`, `Misshapen`, `ToolFailed` — what a request can fail for, said without an error.
* `KindFits`            — the kind of a failure fits what failed.
* `failure_kind_exact`  — every failure is of the kind that fits.
-/

namespace ShaderForge

/-! ## Merging -/

namespace Merge

variable {σ α β : Type} {P : ParseError → Prop}

/-- Every error of the merge is as said, whatever state it begins in. -/
def Blames (P : ParseError → Prop) (x : Merge (StateM σ) α) : Prop :=
  Runs (fun _ => True) x fun r => ∀ e, r = .error e → P e

theorem blames_pure (a : α) : Blames P (pure a : Merge (StateM σ) α) := runs_pure fun _ he => by cases he

theorem blames_throw {e : ParseError} (h : P e) : Blames P (throw e : Merge (StateM σ) α) :=
  runs_throw fun e' he => by cases he; exact h

theorem blames_lift (x : StateM σ α) : Blames P (liftM x : Merge (StateM σ) α) :=
  runs_lift fun _ _ => ⟨_, _, rfl, trivial, fun _ he => by cases he⟩

theorem blames_bind {x : Merge (StateM σ) α} {f : α → Merge (StateM σ) β} (hx : Blames P x)
    (hf : ∀ a, Blames P (f a)) : Blames P (x >>= f) :=
  runs_bind hx (fun a _ => hf a) fun e he e' he' => by cases he'; exact he e rfl

theorem blames_foldlM {f : β → α → Merge (StateM σ) β} (h : ∀ b a, Blames P (f b a)) (l : List α) (b : β) :
    Blames P (l.foldlM f b) := by
  induction l generalizing b with
  | nil => exact blames_pure b
  | cons a l ih =>
    rw [List.foldlM_cons]
    exact blames_bind (h b a) ih

theorem Blames.error {x : Merge (StateM σ) α} (h : Blames P x) {s s' : σ} {e : ParseError}
    (hrun : x.run.run s = (.error e, s')) : P e := by
  obtain ⟨r, s₁, hr, -, he⟩ := h s trivial
  rw [hrun] at hr
  cases hr
  exact he e rfl

end Merge

section Merging

open Merge

variable {σ : Type} {host : Host (StateM σ)}

/-- The error does not blame the shape of a source. -/
def ParseError.Outside (e : ParseError) : Prop := ErrorClass.shape ∉ e.cause.classes

theorem blames_fetch (host : Host (StateM σ)) (opts : IncludeOptions) (root : Path) (chain : List Path)
    (place : Location) (target : Bytes) : Blames ParseError.Outside (fetch host opts root chain place target) := by
  have hfault : ∀ fault, Blames ParseError.Outside
      (includeFault place fault : Merge (StateM σ) (Path × Bytes)) :=
    fun fault => blames_throw (by simp [ParseError.Outside, ParseCause.classes])
  unfold fetch
  refine blames_bind (blames_lift _) fun path => ?_
  split
  · exact hfault _
  · refine blames_bind (blames_lift _) fun found => ?_
    cases found with
    | error e => exact hfault _
    | ok text => exact blames_bind (blames_lift _) fun _ => blames_pure _

theorem blames_expandLines {follow : Location → Bytes → Merge (StateM σ) (List MergedLine)}
    (h : ∀ place target, Blames ParseError.Outside (follow place target)) (file : Path) (number : Nat)
    (lines : List Bytes) : Blames ParseError.Outside (expandLines follow file number lines) := by
  induction lines generalizing number with
  | nil => exact blames_pure _
  | cons line lines ih =>
    rw [expandLines]
    refine blames_bind ?_ fun first => blames_bind (ih _) fun rest => blames_pure _
    unfold expandLine
    refine blames_bind (blames_foldlM (fun acc d => ?_) _ _) fun last => blames_pure _
    exact blames_bind (h _ _) fun ls => blames_pure _

theorem blames_expand (host : Host (StateM σ)) (opts : IncludeOptions) (root : Path) (budget : Nat)
    (chain : List Path) (file : Path) (text : Bytes) :
    Blames ParseError.Outside (expand host opts root budget chain file text) := by
  induction budget generalizing chain file text with
  | zero =>
    rw [expand]
    exact blames_expandLines (fun place target => blames_throw (by simp [ParseError.Outside, ParseCause.classes])) _ _ _
  | succ budget ih =>
    rw [expand]
    exact blames_expandLines (fun place target =>
      blames_bind (blames_fetch host opts root chain place target) fun found => ih _ _ _) _ _ _

theorem blames_resolve (host : Host (StateM σ)) (opts : IncludeOptions) (path : Path) :
    Blames ParseError.Outside (resolve host opts path) := by
  unfold resolve
  refine blames_bind (blames_lift _) fun found => ?_
  cases found with
  | error e => exact blames_throw (by simp [ParseError.Outside, ParseCause.classes])
  | ok text => exact blames_bind (blames_expand host opts _ _ _ _ text) fun ls => blames_pure _

end Merging

theorem Scene.classes_of_read {strict : Bool} {m : Merged} {e : ParseError} (h : (Scene.read strict m).2 = .error e) :
    e.cause.classes = [.shape] := by
  obtain ⟨fault, _, _, reported, rfl, -⟩ := (Scene.read_ends strict m).error h
  unfold Scene.faultAt
  split <;> rfl

/-! ## What a request can fail for -/

section Request

variable (o : PipelineOptions) (name : Bytes) (source : Path) (backend : Backend) (w : World)

/-- The name will do, but there is no compiler for the backend. -/
def Untargeted : Prop := checkName name = .ok () ∧ backend ≠ .directX12

/-- Name and backend will do and the source can be merged, but scanning it fails. -/
def Misshapen : Prop :=
  checkName name = .ok () ∧ backend = .directX12 ∧ ∃ merged w₁,
    (mergeFile o.parser source).run w = (.ok merged, w₁) ∧ (Scene.read o.parser.strict merged).2.isOk = false

/-- An attempt was made to run the tool, and the last one failed or left no output file. -/
def ToolFailed : Prop :=
  ∃ a, (encodeAttempts o name source backend w).getLast? = some a ∧ ¬ a.Succeeded o.compiler.withDefaults

/-- The kind fits what failed: files are to blame if nothing else is. -/
structure KindFits (kind : FailureKind) : Prop where
  untargeted : kind = .backend ↔ Untargeted name backend
  misshapen : kind = .parse ↔ Misshapen o name source backend w
  tool : kind = .tool ↔ ToolFailed o name source backend w
  io : kind = .io ↔ ¬ Untargeted name backend ∧ ¬ Misshapen o name source backend w ∧ ¬ ToolFailed o name source backend w

end Request

section Encoding

variable {o : PipelineOptions} {name : Bytes} {source : Path} {backend : Backend} {w w' : World}

theorem parseFile_error {e : ParseError} (h : (parseFile o.parser source).run w = (.error e, w')) :
    (CompileCause.parse e).kind = .io ∧ (mergeFile o.parser source).run w = (.error e, w') ∨
      (CompileCause.parse e).kind = .parse ∧ ∃ merged w₁, (mergeFile o.parser source).run w = (.ok merged, w₁) ∧
        (Scene.read o.parser.strict merged).2 = .error e := by
  rw [run_parseFile] at h
  rw [run_mergeFile]
  rcases Merge.run_bind_error h with herror | ⟨merged, w₁, hmerged, h⟩
  · have houtside : ErrorClass.shape ∉ e.cause.classes := (blames_resolve _ _ _).error herror
    refine .inl ⟨?_, herror⟩
    obtain ⟨file, line, cause⟩ := e
    cases cause with
    | unreadable => rfl
    | badInclude => rfl
    | badStructure => exact absurd (List.mem_singleton.2 rfl) houtside
  · have hread := read_of_recover h
    refine .inr ⟨?_, merged, w₁, hmerged, hread⟩
    have hclasses : (CompileCause.parse e).classes = [.shape] := Scene.classes_of_read hread
    unfold CompileCause.kind
    rw [hclasses]
    rfl

theorem not_misshapen_of_parse {r : Recovered} (h : (parseFile o.parser source).run w = (.ok r, w')) :
    ¬ Misshapen o name source backend w := by
  rintro ⟨-, -, merged, w₁, hmerged, hread⟩
  rw [run_parseFile] at h
  rw [run_mergeFile] at hmerged
  obtain ⟨merged', w₂, hmerged', h⟩ := Merge.run_bind_ok h
  cases hmerged.symm.trans hmerged'
  have hok := read_of_recover h
  have hstrict : (o.parser.options w).strict = o.parser.strict := rfl
  rw [← hstrict, hok] at hread
  cases hread

/-- A tool that failed was given a source that is parsed, for a backend that has a compiler. -/
theorem parse_of_toolFailed (h : ToolFailed o name source backend w) :
    backend = .directX12 ∧ ∃ r w₁, (parseFile o.parser source).run w = (.ok r, w₁) := by
  obtain ⟨a, hlast, -⟩ := h
  have hne : encodeAttempts o name source backend w ≠ [] := by
    intro hnil
    rw [hnil] at hlast
    cases hlast
  obtain ⟨-, hbackend, r, w₁, -, -, hparse, -⟩ := (encodeTrace_of_run o name source backend w).orderly hne
  exact ⟨hbackend, r, w₁, hparse⟩

/-- The three reasons exclude each other, so a kind that fits one of them fits. -/
theorem fits_of_cases {kind : FailureKind}
    (h : kind = .backend ∧ Untargeted name backend ∨ kind = .parse ∧ Misshapen o name source backend w ∨
      kind = .tool ∧ ToolFailed o name source backend w ∨ kind = .io ∧ ¬ Untargeted name backend ∧
        ¬ Misshapen o name source backend w ∧ ¬ ToolFailed o name source backend w) :
    KindFits o name source backend w kind := by
  have hmisshapen : Misshapen o name source backend w → ¬ Untargeted name backend := fun hm hu => hu.2 hm.2.1
  have htool : ToolFailed o name source backend w → ¬ Untargeted name backend ∧ ¬ Misshapen o name source backend w := by
    intro ht
    obtain ⟨hbackend, r, w₁, hparse⟩ := parse_of_toolFailed ht
    exact ⟨fun hu => hu.2 hbackend, not_misshapen_of_parse hparse⟩
  have hkinds : FailureKind.io ≠ .parse ∧ FailureKind.io ≠ .backend ∧ FailureKind.io ≠ .tool ∧
      FailureKind.parse ≠ .backend ∧ FailureKind.parse ≠ .tool ∧ FailureKind.backend ≠ .tool := by decide
  rcases h with ⟨rfl, h⟩ | ⟨rfl, h⟩ | ⟨rfl, h⟩ | ⟨rfl, h⟩
  all_goals constructor <;> grind

theorem CompileCause.kind_of_classes_nil {cause : CompileCause} (h : cause.classes = []) : cause.kind = .io := by
  unfold CompileCause.kind
  rw [h]
  rfl

theorem not_toolFailed (h : ∀ a ∈ encodeAttempts o name source backend w, a.Succeeded o.compiler.withDefaults) :
    ¬ ToolFailed o name source backend w := by
  rintro ⟨a, hlast, hfailed⟩
  exact hfailed (h a (List.mem_of_getLast? hlast))

/-- Stages that are not all compiled: the last attempt is to blame, or no attempt is. -/
theorem WorkCourse.blame {compiler : CompilerOptions} {r : Recovered} {attempts : List Attempt} {cause : CompileCause}
    (h : WorkCourse o compiler name r w attempts (.error cause) w') (hstages : r.stages.Discovered) :
    cause.kind = .tool ∧ (∃ a, attempts.getLast? = some a ∧ ¬ a.Succeeded compiler) ∨
      cause.kind = .io ∧ ∀ a ∈ attempts, a.Succeeded compiler := by
  cases h with
  | unprepared hclasses => exact .inr ⟨CompileCause.kind_of_classes_nil hclasses, by simp⟩
  | prepared _ _ _ _ hcourse =>
    rcases hcourse.comes hstages.kinds_ordered with
      ⟨_, hresult, -⟩ | ⟨error, a, hresult, hlast, hfailed⟩ | ⟨_, hresult, hclasses, hall⟩
    · cases hresult
    · cases hresult
      exact .inl ⟨rfl, a, hlast, hfailed⟩
    · cases hresult
      exact .inr ⟨CompileCause.kind_of_classes_nil hclasses, hall⟩

theorem fits_of_unencoded {cause : CompileCause}
    (h : (encodeSteps o name source backend).run.run w = (.error cause, w')) :
    KindFits o name source backend w cause.kind := by
  have htrace := encodeTrace_of_run o name source backend w
  rw [h] at htrace
  generalize hattempts : encodeAttempts o name source backend w = attempts at htrace
  have hnone : attempts = [] → ¬ ToolFailed o name source backend w := by
    rintro rfl
    exact not_toolFailed (by simp [hattempts])
  refine fits_of_cases ?_
  cases htrace with
  | misnamed hname =>
    refine .inr (.inr (.inr ⟨rfl, fun hu => ?_, fun hm => ?_, hnone rfl⟩))
    · cases hname.symm.trans hu.1
    · cases hname.symm.trans hm.1
  | untargeted hname hbackend => exact .inl ⟨rfl, hname, hbackend⟩
  | unparsed hname hbackend hparse =>
    rcases parseFile_error hparse with ⟨hkind, hmerge⟩ | ⟨hkind, merged, w₁, hmerge, hread⟩
    · refine .inr (.inr (.inr ⟨hkind, fun hu => hu.2 hbackend, ?_, hnone rfl⟩))
      rintro ⟨-, -, merged, w₁, hmerged, -⟩
      cases hmerge.symm.trans hmerged
    · exact .inr (.inl ⟨hkind, hname, hbackend, merged, w₁, hmerge, by rw [hread]; rfl⟩)
  | @worked r w₁ w₂ _ _ codes _ hname hbackend hparse hwork hresult =>
    have hstages := (wellFormed_of_parseFile hparse).stages
    have huntargeted : ¬ Untargeted name backend := fun hu => hu.2 hbackend
    have hmisshapen : ¬ Misshapen o name source backend w := not_misshapen_of_parse hparse
    cases codes with
    | error cause' =>
      cases hresult
      rcases hwork.blame hstages with ⟨hkind, hfailed⟩ | ⟨hkind, hall⟩
      · exact .inr (.inr (.inl ⟨hkind, by rw [ToolFailed, hattempts]; exact hfailed⟩))
      · exact .inr (.inr (.inr ⟨hkind, huntargeted, hmisshapen, not_toolFailed (by rwa [hattempts])⟩))
    | ok bytecode =>
      -- what is left to fail is the size of the artifact
      have hall := (hwork.complete hstages).2
      refine .inr (.inr (.inr ⟨?_, huntargeted, hmisshapen, not_toolFailed (by rwa [hattempts])⟩))
      have hresult : (Artifact.encode .dxil (some { r.metadata name with stages := some r.stages.renumbered })
        bytecode).mapError CompileCause.artifact = .error cause := hresult.symm
      cases hencode : Artifact.encode .dxil (some { r.metadata name with stages := some r.stages.renumbered })
          bytecode with
      | error e =>
        rw [hencode] at hresult
        cases hresult
        rfl
      | ok data =>
        rw [hencode] at hresult
        cases hresult

theorem fits_of_unwritten {data : Bytes} {kind : FailureKind}
    (h : (encodeSteps o name source backend).run.run w = (.ok data, w')) (hkind : kind = .io) :
    KindFits o name source backend w kind := by
  have htrace := encodeTrace_of_run o name source backend w
  rw [h] at htrace
  obtain ⟨r, w₁, hparse, -, hall⟩ := htrace.complete
  have hbackend : backend = .directX12 := by
    generalize encodeAttempts o name source backend w = attempts at htrace
    cases htrace with
    | worked _ hbackend => exact hbackend
  exact fits_of_cases (.inr (.inr (.inr
    ⟨hkind, fun hu => hu.2 hbackend, not_misshapen_of_parse hparse, not_toolFailed hall⟩)))

theorem Step.run_bind_error {α β : Type} {x : Step α} {f : α → Step β} {cause : CompileCause}
    (h : (x >>= f).run.run w = (.error cause, w')) :
    x.run.run w = (.error cause, w') ∨ ∃ a w₁, (f a).run.run w₁ = (.error cause, w') := by
  rw [run_bind] at h
  split at h
  · rename_i a w₁ hx
    exact .inr ⟨a, w₁, h⟩
  · rename_i hx
    cases h
    exact .inl hx

theorem Step.run_lift_error {ε α : Type} {f : ε → CompileCause} {x : Action (Except ε α)} {cause : CompileCause}
    (h : (lift f x).run.run w = (.error cause, w')) : ∃ e, cause = f e := by
  rw [run_lift] at h
  split at h
  · cases h
  · cases h
    exact ⟨_, rfl⟩

theorem classes_of_writeWhole {path : Path} {data : Bytes} {cause : CompileCause}
    (h : (writeWhole FileCalls.world path data).run.run w = (.error cause, w')) : cause.classes = [] := by
  rcases Step.run_bind_error h with h | ⟨_, w₁, h⟩
  · obtain ⟨e, rfl⟩ := Step.run_lift_error h
    rfl
  rcases Step.run_bind_error h with h | ⟨temp, w₂, h⟩
  · obtain ⟨e, rfl⟩ := Step.run_lift_error h
    rfl
  rw [Step.run_ensuring] at h
  rcases Step.run_bind_error (Prod.ext (Prod.mk.inj h).1 rfl) with h | ⟨_, w₃, h⟩
  · obtain ⟨e, rfl⟩ := Step.run_lift_error h
    rfl
  · obtain ⟨e, rfl⟩ := Step.run_lift_error h
    rfl

/-- However an encoding or a compilation fails, the error names the shader and its kind tells what failed. -/
theorem failure_kind_exact (o : PipelineOptions) (name : Bytes) (source : Path) (backend : Backend) (outDir : Path)
    (w : World) {e : CompileError}
    (h : ((encodeShader o name source backend).run w).1 = .error e ∨
      ((compileShader o name source backend outDir).run w).1 = .error e) :
    e.shader = name ∧ KindFits o name source backend w e.kind := by
  rcases h with h | h
  · rw [run_encodeShader] at h
    rcases hsteps : (encodeSteps o name source backend).run.run w with ⟨cause | data, w'⟩
    · rw [hsteps] at h
      cases h
      exact ⟨rfl, fits_of_unencoded hsteps⟩
    · rw [hsteps] at h
      cases h
  · have hcourse := compileCourse_of_run o name source backend outDir w
    generalize (compileShader o name source backend outDir).run w = ran at h hcourse
    cases hcourse with
    | unencoded hsteps =>
      cases h
      exact ⟨rfl, fits_of_unencoded hsteps⟩
    | unwritten hencode hwrite =>
      cases h
      exact ⟨rfl, fits_of_unwritten hencode (CompileCause.kind_of_classes_nil (classes_of_writeWhole hwrite))⟩
    | written => cases h

end Encoding

/-- A tool that refuses vertex stages. -/
def refusingOptions : PipelineOptions where
  compiler := { runner := .direct fun i =>
    if i.entry = StageKind.vertexEntryPoint then { ending := .exit 1 } else { bytecode := some i.entry } }

set_option maxRecDepth 4000 in
/-- The first of two stages is compiled, the second is refused. -/
theorem failure_kind_exact_refused :
    ∃ e, ((encodeShader refusingOptions "a" "/a.hlsl" .directX12).run twoStageWorld).1 = .error e ∧ e.shader = "a" ∧
      e.kind = .tool ∧ ToolFailed refusingOptions "a" "/a.hlsl" .directX12 twoStageWorld := by
  have hkind : ((encodeShader refusingOptions "a" "/a.hlsl" .directX12).run twoStageWorld).1.mapError CompileError.kind =
      .error .tool := by cbv
  rcases hrun : ((encodeShader refusingOptions "a" "/a.hlsl" .directX12).run twoStageWorld).1 with e | data
  · rw [hrun] at hkind
    have hkind : e.kind = .tool := Except.error.inj hkind
    obtain ⟨hshader, hfits⟩ := failure_kind_exact refusingOptions "a" "/a.hlsl" .directX12 "/out" twoStageWorld (.inl hrun)
    exact ⟨e, rfl, hshader, hkind, hfits.tool.1 hkind⟩
  · rw [hrun] at hkind
    cases hkind

end ShaderForge
