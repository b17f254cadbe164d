import ShaderForge.Proofs.Pipeline.Parsing
import ShaderForge.Proofs.Source.Description
import ShaderForge.Proofs.Source.Provenance
import ShaderForge.Proofs.Source.Tokens

/-!
# ShaderForge.Proofs.Source.FaultPlaces

Faults in the structure of a source are reported at the file and line of what they are about.

* `FaultAt`        — a fault, the name or declaration that it is about, and where that stands in the scanned text.
* `Scene.read_ends` — every error of a scan is such a fault, reported at an offset of the text.
* `located_faultAt` — the source map knows the line of every offset.
-/

namespace ShaderForge

/-! ## What faults are about -/

/-- In the scanned text, the fault is about the token at the offset: the name of a function, the name of a struct,
or the declaration of a field. -/
inductive FaultAt (text : Bytes) : StructureFault → Nat → Bytes → Prop
  | unsupported {h : Head} (hmem : h ∈ functions text) (hkind : StageKind.ofEntryPoint? h.name = none) :
      FaultAt text (.unsupportedEntryPoint h.name) h.offset h.name
  | stage {h : Head} {kind : StageKind} {first : Bytes} (hmem : h ∈ functions text)
      (hkind : StageKind.ofEntryPoint? h.name = some kind) :
      FaultAt text (.duplicateStage kind first) h.offset h.name
  | struct {b : StructBlock} {line : Nat} (hmem : b ∈ structs text) :
      FaultAt text (.duplicateStruct b.name line) b.offset b.name
  | declarations {a b : StructBlock} (hmem : b ∈ structs text) (hres : isResourceDeclaration b.name = true) :
      FaultAt text (.duplicateDeclarations a.name b.name) b.offset b.name
  | layout {b : StructBlock} {name : Bytes} (hmem : b ∈ structs text) (hres : isResourceDeclaration b.name = true) :
      FaultAt text (.missingLayout name) b.offset b.name
  | type {b : StructBlock} {f : Field} {d : Bytes} (hmem : b ∈ structs text) (hf : b.DeclaresField d f) :
      FaultAt text (.unknownType f.typeName f.name) f.offset d
  | resource {b : StructBlock} {f : Field} {d : Bytes} (hmem : b ∈ structs text) (hf : b.DeclaresField d f) :
      FaultAt text (.nonUintResource b.name f.name f.typeName) f.offset d
  | «export» {b : StructBlock} {f : Field} {d : Bytes} (hmem : b ∈ structs text) (hf : b.DeclaresField d f) :
      FaultAt text (.duplicateExport (normalizeName f.name)) f.offset d
  | semantic {b : StructBlock} {f : Field} {d : Bytes} (hmem : b ∈ structs text) (hf : b.DeclaresField d f) :
      FaultAt text (.missingSemantic b.name f.name) f.offset d
  | malformed {b : StructBlock} {d : Bytes} {offset : Nat} (hmem : b ∈ structs text) (hd : b.Declares d offset) :
      FaultAt text (.malformedField d) offset d

/-- The declaration that the fault calls malformed, if it does so, begins with a well-formed character. -/
def StructureFault.BeginsWell (fault : StructureFault) : Prop :=
  ∀ d, fault = .malformedField d → (Utf8.front? d).isSome = true

theorem FaultAt.stands {text token : Bytes} {fault : StructureFault} {offset : Nat}
    (h : FaultAt text fault offset token) : token <+: text.drop offset := by
  cases h with
  | unsupported hmem _ => exact (Head.name_at hmem).2
  | stage hmem _ => exact (Head.name_at hmem).2
  | struct hmem => exact (StructBlock.name_at hmem).2.1
  | declarations hmem _ => exact (StructBlock.name_at hmem).2.1
  | layout hmem _ => exact (StructBlock.name_at hmem).2.1
  | type hmem hf => exact hf.1.at hmem
  | resource hmem hf => exact hf.1.at hmem
  | «export» hmem hf => exact hf.1.at hmem
  | semantic hmem hf => exact hf.1.at hmem
  | malformed hmem hd => exact hd.at hmem

theorem StructBlock.DeclaresField.front? {b : StructBlock} {d : Bytes} {f : Field} (h : b.DeclaresField d f) :
    ∃ c w, Utf8.front? d = some (c, w) ∧ isBlank c = false := by
  obtain ⟨front, left, right, back, -, -, -, -, -, -, htrim, -⟩ := h.1.trimmed
  have hne := h.1.ne_nil
  have hread := h.2
  rw [htrim] at hne hread
  obtain ⟨⟨c, w⟩, hfront⟩ := Option.isSome_iff_exists.1 (front?_of_declaration? hne hread)
  rw [← htrim] at hfront
  exact ⟨c, w, hfront, h.1.not_isBlank hfront⟩

theorem FaultAt.front? {text token : Bytes} {fault : StructureFault} {offset : Nat}
    (h : FaultAt text fault offset token) (hwell : fault.BeginsWell) :
    ∃ c w, Utf8.front? token = some (c, w) ∧ isBlank c = false := by
  cases h with
  | unsupported hmem _ => exact (Head.name_at hmem).1.front?
  | stage hmem _ => exact (Head.name_at hmem).1.front?
  | struct hmem => exact (StructBlock.name_at hmem).1.front?
  | declarations hmem _ => exact (StructBlock.name_at hmem).1.front?
  | layout hmem _ => exact (StructBlock.name_at hmem).1.front?
  | type _ hf => exact hf.front?
  | resource _ hf => exact hf.front?
  | «export» _ hf => exact hf.front?
  | semantic _ hf => exact hf.front?
  | malformed _ hd =>
    obtain ⟨⟨c, w⟩, hfront⟩ := Option.isSome_iff_exists.1 (hwell _ rfl)
    exact ⟨c, w, hfront, hd.not_isBlank hfront⟩

/-! ## The errors of a scan -/

namespace Scene

variable {sc : Scene}

/-- The error reports a fault of the scanned text, at the offset of its token if that begins well. -/
def Faulty (sc : Scene) (e : ParseError) : Prop :=
  ∃ fault offset token reported, e = sc.faultAt reported fault ∧ FaultAt sc.text fault offset token ∧
    (fault.BeginsWell → reported = offset)

theorem faulty_of_faultAt {fault : StructureFault} {offset : Nat} {token : Bytes}
    (h : FaultAt sc.text fault offset token) : sc.Faulty (sc.faultAt offset fault) :=
  ⟨fault, offset, token, offset, rfl, h, fun _ => rfl⟩

/-- The field is declared in one of the structs of the text. -/
def Fields (sc : Scene) (b : StructBlock) (fs : List Field) : Prop :=
  b ∈ structs sc.text ∧ ∀ f ∈ fs, ∃ d, b.DeclaresField d f

theorem fields_ends {b : StructBlock} (hmem : b ∈ structs sc.text) : Ends (sc.Fields b) sc.Faulty (sc.fields b) := by
  have hends := b.fields_declares
  unfold fields
  split
  · rename_i fs hfs
    exact ⟨hmem, hends.ok hfs⟩
  · rename_i m hm
    obtain ⟨offset, hd, hoffset⟩ := hends.error hm
    exact ⟨_, offset, _, m.offset, rfl, .malformed hmem hd, fun hwell => hoffset (hwell _ rfl)⟩

theorem fieldType_ends {b : StructBlock} {f : Field} {fs : List Field} (h : sc.Fields b fs) (hf : f ∈ fs) :
    Ends (fun _ => True) sc.Faulty (sc.fieldType f) := by
  obtain ⟨d, hd⟩ := h.2 f hf
  unfold fieldType
  split
  · trivial
  · exact faulty_of_faultAt (.type h.1 hd)

theorem addStage_ends {f : Head} (hf : f ∈ functions sc.text) (stages : Stages) :
    Ends (fun _ => True) sc.Faulty (sc.addStage stages f) := by
  unfold addStage
  split
  · split
    · rename_i hkind
      exact faulty_of_faultAt (.unsupported hf hkind)
    · rename_i kind hkind
      split
      · exact faulty_of_faultAt (.stage hf hkind)
      · trivial
  · trivial

theorem stages_ends : Ends (fun _ => True) sc.Faulty sc.stages :=
  Ends.foldlM (fun stages _ hf _ => addStage_ends hf stages) trivial

theorem vertexInput_ends {b : StructBlock} {f : Field} {fs : List Field} (h : sc.Fields b fs) (hf : f ∈ fs) :
    Ends (fun _ => True) sc.Faulty (sc.vertexInput b f) := by
  obtain ⟨d, hd⟩ := h.2 f hf
  refine (fieldType_ends h hf).bind fun type _ => ?_
  split
  · trivial
  · exact faulty_of_faultAt (.semantic h.1 hd)

theorem addVertexInputs_ends {b : StructBlock} (hmem : b ∈ structs sc.text) (stages : Stages) :
    Ends (fun _ => True) sc.Faulty (sc.addVertexInputs stages b) := by
  unfold addVertexInputs
  split
  · trivial
  · refine (fields_ends hmem).bind fun fs hfs => ?_
    exact (Ends.mapM fun f hf => vertexInput_ends hfs hf).bind fun inputs _ => trivial

theorem elementsFrom_ends {b : StructBlock} {fs : List Field} (h : sc.Fields b fs) (offset : Nat) :
    Ends (fun _ => True) sc.Faulty (sc.elementsFrom offset fs) := by
  induction fs generalizing offset with
  | nil => trivial
  | cons f fs ih =>
    refine (fieldType_ends h List.mem_cons_self).bind fun type _ => ?_
    have hrest : sc.Fields b fs := ⟨h.1, fun f hf => h.2 f (List.mem_cons_of_mem _ hf)⟩
    exact (ih hrest _).bind fun elements _ => trivial

theorem layout_ends {b : StructBlock} (hmem : b ∈ structs sc.text) :
    Ends (fun _ => True) sc.Faulty (sc.layout b) :=
  (fields_ends hmem).bind fun _ hfs => elementsFrom_ends hfs 0

/-- What a survey holds on to are structs of the text. -/
structure Survey.Known (sc : Scene) (v : Survey) : Prop where
  seen : ∀ b ∈ v.seen, b ∈ structs sc.text
  declarations : ∀ b ∈ v.declarations, b ∈ structs sc.text ∧ isResourceDeclaration b.name = true

theorem surveyStruct_ends {v : Survey} {b : StructBlock} (hmem : b ∈ structs sc.text) (h : v.Known sc) :
    Ends (Survey.Known sc) sc.Faulty (sc.surveyStruct v b) := by
  unfold surveyStruct
  split
  · exact faulty_of_faultAt (.struct hmem)
  have hseen : ∀ a ∈ v.seen ++ [b], a ∈ structs sc.text := by
    intro a ha
    rcases List.mem_append.1 ha with ha | ha
    · exact h.seen a ha
    · rwa [List.mem_singleton.1 ha]
  dsimp only
  split
  · rename_i hres
    refine ⟨hseen, fun a ha => ?_⟩
    rcases List.mem_append.1 ha with ha | ha
    · exact h.declarations a ha
    · rw [List.mem_singleton.1 ha]
      exact ⟨hmem, hres⟩
  split
  · exact (addVertexInputs_ends hmem _).bind fun stages _ => ⟨hseen, h.declarations⟩
  split
  · exact ⟨hseen, h.declarations⟩
  · exact (layout_ends hmem).bind fun _ _ => ⟨hseen, h.declarations⟩

theorem survey_ends (stages : Stages) : Ends (Survey.Known sc) sc.Faulty (sc.survey stages) :=
  Ends.foldlM (fun _ _ hb hv => surveyStruct_ends hb hv)
    ⟨fun _ hb => absurd hb List.not_mem_nil, fun _ hb => absurd hb List.not_mem_nil⟩

theorem theDeclaration_ends {v : Survey} (h : v.Known sc) :
    Ends (fun found => ∀ b ∈ found, b ∈ structs sc.text ∧ isResourceDeclaration b.name = true) sc.Faulty
      (sc.theDeclaration v) := by
  have hknown := h.declarations
  unfold theDeclaration
  split
  · intro b hb
    cases hb
  · rename_i a ha
    rw [ha] at hknown
    intro b hb
    cases hb
    exact hknown _ List.mem_cons_self
  · rename_i a b rest hv
    rw [hv] at hknown
    obtain ⟨hmem, hres⟩ := hknown b (by simp)
    exact faulty_of_faultAt (.declarations hmem hres)

theorem addExports_ends {b : StructBlock} {fs : List Field} (h : sc.Fields b fs) (binding : Nat) (exports : Exports) :
    Ends (fun _ => True) sc.Faulty (sc.addExports b binding exports fs) := by
  induction fs generalizing binding exports with
  | nil => trivial
  | cons f fs ih =>
    obtain ⟨d, hd⟩ := h.2 f List.mem_cons_self
    have hrest : sc.Fields b fs := ⟨h.1, fun f hf => h.2 f (List.mem_cons_of_mem _ hf)⟩
    rw [addExports]
    refine (fieldType_ends h List.mem_cons_self).bind fun type _ => ?_
    split
    · exact faulty_of_faultAt (.resource h.1 hd)
    · dsimp only
      split
      · exact faulty_of_faultAt (.export h.1 hd)
      · exact ih hrest _ _

theorem declaredExports_ends {declaration : Option StructBlock} (h : ∀ b ∈ declaration, b ∈ structs sc.text) :
    Ends (fun exports => declaration = none → exports = Dict.empty) sc.Faulty (sc.declaredExports declaration) := by
  cases declaration with
  | none => exact fun _ => rfl
  | some b =>
    refine (fields_ends (h b rfl)).bind fun fs hfs => ?_
    exact (addExports_ends hfs 0 Dict.empty).imp fun exports _ hnone => by cases hnone

theorem attachLayout_ends (strict : Bool) {v : Survey} (h : v.Known sc) {b : StructBlock} (hmem : b ∈ structs sc.text)
    (hres : isResourceDeclaration b.name = true) (exports : Exports) (x : Bytes × Option Export) :
    Ends (fun _ => True) sc.Faulty (sc.attachLayout strict v (some b) exports x) := by
  unfold attachLayout
  split
  · split
    · exact faulty_of_faultAt (.layout hmem hres)
    · trivial
  · rename_i a hfound
    have hseen : a ∈ structs sc.text := by
      unfold layoutStruct? at hfound
      split at hfound
      · cases hfound
      · exact h.seen a (List.mem_of_find?_eq_some hfound)
    exact (layout_ends hseen).bind fun elements _ => trivial

theorem declarations_ends : Ends (fun r : Survey × Option StructBlock × Exports => r.1.Known sc ∧
      (∀ b ∈ r.2.1, b ∈ structs sc.text ∧ isResourceDeclaration b.name = true) ∧
      (r.2.1 = none → r.2.2 = Dict.empty)) sc.Faulty sc.declarations := by
  refine stages_ends.bind fun stages _ => (survey_ends stages).bind fun v hv => ?_
  refine (theDeclaration_ends hv).bind fun declaration hdeclaration => ?_
  refine (declaredExports_ends fun b hb => (hdeclaration b hb).1).bind fun exports hexports => ?_
  exact ⟨hv, hdeclaration, hexports⟩

theorem read_ends (strict : Bool) (m : Merged) : Ends (fun _ => True) (ofMerged m).Faulty (read strict m).2 := by
  rw [read_eq]
  refine declarations_ends.bind fun found hfound => ?_
  obtain ⟨v, declaration, declared⟩ := found
  obtain ⟨hv, hdeclaration, hexports⟩ := hfound
  have hattached : Ends (fun _ => True) (ofMerged m).Faulty
      (declared.ordered.foldlM ((ofMerged m).attachLayout strict v declaration) declared) := by
    cases declaration with
    | none =>
      rw [show declared = Dict.empty from hexports rfl]
      trivial
    | some b =>
      obtain ⟨hmem, hres⟩ := hdeclaration b rfl
      exact Ends.foldlM (fun exports x _ _ => attachLayout_ends strict hv hmem hres exports x) trivial
  exact hattached.bind fun exports _ => trivial

end Scene

/-! ## The places of offsets -/

variable {σ : Type}

/-- Every offset is on one of the merged lines, and the scan reports the place of that line. -/
theorem located_faultAt {ls : List MergedLine} (hne : ls ≠ []) (hlines : ∀ l ∈ ls, Bytes.lf ∉ l.text) (offset : Nat)
    (fault : StructureFault) :
    ∃ l, ls[((Merged.ofLines ls).text.take offset).count Bytes.lf]? = some l ∧
      (Scene.ofMerged (Merged.ofLines ls)).faultAt offset fault =
        ⟨l.origin.file, l.origin.line, .badStructure fault⟩ := by
  have hlt : ((Merged.ofLines ls).text.take offset).count Bytes.lf < ls.length := by
    have hle := (List.take_sublist offset (Merged.ofLines ls).text).count_le Bytes.lf
    have hlen := Bytes.length_split Bytes.lf (Merged.ofLines ls).text
    rw [show Bytes.split Bytes.lf _ = _ from lines_ofLines hne hlines, List.length_map] at hlen
    omega
  have hline : lineAt (Scene.ofMerged (Merged.ofLines ls)).text offset =
      ((Merged.ofLines ls).text.take offset).count Bytes.lf + 1 := lineAt_blankComments _ _
  generalize ((Merged.ofLines ls).text.take offset).count Bytes.lf = n at hlt hline ⊢
  have hlookup : (Scene.ofMerged (Merged.ofLines ls)).map.lookup? ((n + 1 : Nat) : Int) = some ls[n].origin := by
    rw [SourceMap.lookup?, if_neg (by omega)]
    simp [Scene.ofMerged, Merged.ofLines, hlt]
  refine ⟨ls[n], List.getElem?_eq_getElem hlt, ?_⟩
  rw [Scene.faultAt, hline, hlookup]

theorem Merge.run_bind_error {α β : Type} {x : Merge (StateM σ) α} {f : α → Merge (StateM σ) β} {s s' : σ}
    {e : ParseError} (h : (x >>= f).run.run s = (.error e, s')) :
    x.run.run s = (.error e, s') ∨ ∃ a s1, x.run.run s = (.ok a, s1) ∧ (f a).run.run s1 = (.error e, s') := by
  rw [ExceptT.run_bind, StateT.run_bind] at h
  cases hx : x.run.run s with
  | mk r s1 =>
    rw [hx] at h
    cases r with
    | ok a => exact .inr ⟨a, s1, rfl, h⟩
    | error e' =>
      cases h
      exact .inl rfl

theorem run_mergeFile (s : ParserSettings) (path : Path) (w : World) :
    (mergeFile s path).run w = (resolve s.host (s.options w).toIncludeOptions path).run.run w := by
  unfold mergeFile
  rw [StateT.run_bind]
  rfl

theorem run_mergeText (s : ParserSettings) (path : Path) (text : Bytes) (w : World) :
    (mergeText s path text).run w = (resolveText s.host (s.options w).toIncludeOptions path text).run.run w := by
  unfold mergeText
  rw [StateT.run_bind]
  rfl

theorem run_parseSource (s : ParserSettings) (path : Path) (text : Bytes) (w : World) :
    (parseSource s path text).run w = (parseText s.host (s.options w) path text).run.run w := by
  unfold parseSource
  rw [StateT.run_bind]
  rfl

end ShaderForge
