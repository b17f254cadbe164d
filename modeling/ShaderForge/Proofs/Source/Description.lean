import ShaderForge.Proofs.Source.Consistency
import ShaderForge.Proofs.Source.Fields

/-!
# ShaderForge.Proofs.Source.Description

Shader descriptions, the sources they can be written as, and what is recovered from those.

* `Description`          — resources with their layouts, vertex inputs, and the stages in order.
* `Description.Prints`   — a text is a source of the description: its blocks in some order, with some white space.
* `Description.stageTable`, `Description.exportTable` — the result that the description asks for.
* `parseText_of_prints`  — every such source is parsed, and to that result.
-/

namespace ShaderForge

/-! ## Descriptions -/

/-- A data type that has a keyword. -/
structure NamedType where
  type : DataType
  named : type.info?.isSome = true

theorem keyword_of_named (t : DataType) (h : t.info?.isSome = true) :
    IsIdentifier t.keyword ∧ DataType.ofKeyword? t.keyword = some t := by
  obtain ⟨code⟩ := t
  exact Bytes.forall_octet
    (P := fun c => (DataType.mk c).info?.isSome = true →
      IsIdentifier (DataType.mk c).keyword ∧ DataType.ofKeyword? (DataType.mk c).keyword = some ⟨c⟩)
    (by decide +kernel) code h

def NamedType.word (t : NamedType) : Word := ⟨t.type.keyword, (keyword_of_named t.type t.named).1⟩

def uintType : NamedType := ⟨.uint, by decide⟩

/-- One field of a layout. -/
structure Member where
  type : NamedType
  name : Word

def Member.declaration (m : Member) : Declaration := ⟨m.type.word, m.name, none⟩

/-- One vertex input. -/
structure Input where
  type : NamedType
  name : Word
  semantic : Word

def Input.declaration (i : Input) : Declaration := ⟨i.type.word, i.name, some i.semantic⟩

/-- A resource field, with a layout or without one. -/
structure Resource where
  name : Word
  layout : Option (List Member)

namespace Resource

/-- The name under which the resource is exported, which is also that of its layout's struct. -/
def exportName (r : Resource) : Word := ⟨normalizeName r.name.bytes, r.name.isIdentifier.normalizeName⟩

def declaration (r : Resource) : Declaration := ⟨uintType.word, r.name, none⟩

def layoutStruct? (r : Resource) : Option (Word × List Declaration) :=
  r.layout.map fun ms => (r.exportName, ms.map Member.declaration)

end Resource

/-- Struct names that have a meaning of their own. -/
def reservedStructs : List Bytes :=
  [resourcesStruct, legacyResourcesStruct, vertexInputStruct, utf8 "VSOutput", utf8 "PSOutput"]

/-- What a shader declares. Exported names differ from one another and from the reserved ones, and each of the
two stages is there at most once. -/
structure Description where
  resources : List Resource
  inputs : List Input
  stages : List StageKind
  distinct : (resources.map fun r => r.exportName.bytes).Nodup
  unreserved : ∀ r ∈ resources, r.exportName.bytes ∉ reservedStructs
  known : ∀ k ∈ stages, k ∈ StageKind.all
  once : stages.Nodup

def entryWord (k : StageKind) : Word :=
  if k = .vertex then ⟨StageKind.vertexEntryPoint, by decide⟩ else ⟨StageKind.pixelEntryPoint, by decide⟩

def resourcesWord : Word := ⟨resourcesStruct, by decide⟩

def vertexInputWord : Word := ⟨vertexInputStruct, by decide⟩

namespace Description

variable (d : Description)

/-- The structs of a source: the resource declaration, the vertex inputs, and the layouts. -/
def structs : List (Word × List Declaration) :=
  (resourcesWord, d.resources.map Resource.declaration) :: (vertexInputWord, d.inputs.map Input.declaration) ::
    d.resources.filterMap Resource.layoutStruct?

def blocks : List Block :=
  (d.structs.map fun s => .struct s.1 s.2) ++ d.stages.map fun k => .function (entryWord k)

/-- The text holds the blocks in some order, the functions in that of the stages. -/
def Prints (text : Bytes) : Prop :=
  ∃ bs : List Block, bs.Perm d.blocks ∧ bs.filterMap Block.function? = d.stages.map entryWord ∧
    Spelled (bs.flatMap Block.tokens) text

end Description

/-! ## What a description asks for -/

/-- The elements of a layout, each as far behind `start` as the ones before it are long. -/
def layoutElements (start : Int) (ms : List Member) : List ExportElement :=
  ms.mapIdx fun i m =>
    ⟨normalizeName m.name.bytes, m.type.type, start + totalSize ((ms.take i).map fun m => m.type.type)⟩

def layoutSize (ms : List Member) : Int := totalSize (ms.map fun m => m.type.type)

def Input.slot (i : Input) : VertexInput := ⟨i.type.type, i.semantic.bytes⟩

/-- The export at a binding: uniform when there is a layout. -/
def Resource.exported (r : Resource) (binding : Nat) : Export :=
  match r.layout with
  | none => { binding := some binding, type := .nonUniform }
  | some ms =>
    { binding := some binding, type := .uniform, elements := some (layoutElements 0 ms),
      sizeInBytes := some (layoutSize ms) }

namespace Description

variable (d : Description)

/-- The stage at a buffer index: only a vertex stage has inputs. -/
def stage (k : StageKind) (buffer : Nat) : Stage :=
  { entryPoint := (entryWord k).bytes
    buffer := buffer
    inputs := if k = .vertex then some (d.inputs.map Input.slot) else none
    inputsSizePerVertex := if k = .vertex then some (totalSize (d.inputs.map fun i => i.type.type)) else none }

def stageTable : Stages := Dict.ofList (d.stages.zipIdx.map fun x => (x.1, d.stage x.1 x.2))

def exportTable : Exports :=
  Dict.ofList (d.resources.zipIdx.map fun x => (x.1.exportName.bytes, some (x.1.exported x.2)))

end Description

/-! ## Reading structs -/

namespace Scene

variable (sc : Scene)

theorem fieldType_of_reads {f : Field} {d : Declaration} (h : f.Reads d) {t : NamedType} (ht : d.type = t.word) :
    sc.fieldType f = .ok t.type := by
  have hkeyword : DataType.ofKeyword? f.typeName = some t.type := by
    rw [h.1, ht]
    exact (keyword_of_named t.type t.named).2
  simp only [fieldType, hkeyword]

theorem fields_of_reads {b : StructBlock} {x : Word × List Declaration} (h : b.Reads x) :
    ∃ fs, sc.fields b = .ok fs ∧ List.Forall₂ Field.Reads fs x.2 := by
  obtain ⟨fs, hfs, hall⟩ := h.fields
  exact ⟨fs, by simp only [fields, hfs], hall⟩

theorem elementsFrom_of_reads {ms : List Member} {fs : List Field}
    (h : List.Forall₂ Field.Reads fs (ms.map Member.declaration)) (offset : Nat) :
    sc.elementsFrom offset fs = .ok (layoutElements offset ms) := by
  induction ms generalizing fs offset with
  | nil =>
    cases h
    rfl
  | cons m ms ih =>
    obtain ⟨f, fs, hf, hfs, rfl⟩ := List.forall₂_cons_right_iff.1 h
    have hstep : layoutElements offset (m :: ms) =
        ⟨normalizeName m.name.bytes, m.type.type, offset⟩ ::
          layoutElements (offset + m.type.type.size : Nat) ms := by
      simp [layoutElements, List.mapIdx_cons, Int.add_assoc]
    rw [hstep, elementsFrom, fieldType_of_reads sc hf (t := m.type) rfl, hf.2.1]
    simp only [bind, Except.bind, ih hfs]
    rfl

theorem layout_of_reads {b : StructBlock} {name : Word} {ms : List Member}
    (h : b.Reads (name, ms.map Member.declaration)) : sc.layout b = .ok (layoutElements 0 ms) := by
  obtain ⟨fs, hfs, hall⟩ := fields_of_reads sc h
  rw [layout, hfs]
  exact elementsFrom_of_reads sc hall 0

theorem vertexInputs_of_reads {b : StructBlock} {is : List Input} {fs : List Field}
    (h : List.Forall₂ Field.Reads fs (is.map Input.declaration)) :
    fs.mapM (sc.vertexInput b) = .ok (is.map Input.slot) := by
  induction is generalizing fs with
  | nil =>
    cases h
    rfl
  | cons i is ih =>
    obtain ⟨f, fs, hf, hfs, rfl⟩ := List.forall₂_cons_right_iff.1 h
    have hinput : sc.vertexInput b f = .ok i.slot := by
      rw [vertexInput, fieldType_of_reads sc hf (t := i.type) rfl, hf.2.2]
      rfl
    rw [List.mapM_cons, hinput, ih hfs]
    rfl

end Scene

/-! ## Stages -/

theorem entryWord_class {k : StageKind} (h : k ∈ StageKind.all) :
    isEntryPointName (entryWord k).bytes = true ∧ StageKind.ofEntryPoint? (entryWord k).bytes = some k ∧
      (entryWord k).bytes ≠ structWord.bytes := by
  have hall : ∀ k ∈ StageKind.all, isEntryPointName (entryWord k).bytes = true ∧
      StageKind.ofEntryPoint? (entryWord k).bytes = some k ∧ (entryWord k).bytes ≠ structWord.bytes := by
    decide
  exact hall k h

namespace Scene

variable (sc : Scene)

theorem addStages_of_names {ks : List StageKind} {fs : List Head}
    (hnames : fs.map Head.name = ks.map fun k => (entryWord k).bytes) (hknown : ∀ k ∈ ks, k ∈ StageKind.all)
    (honce : ks.Nodup) {st : Stages} (hnew : ∀ k ∈ ks, st.get? k = none) :
    fs.foldlM sc.addStage st =
      .ok (((ks.zipIdx st.size).map fun x => (x.1, newStage x.1 (entryWord x.1).bytes x.2)).foldl
        (fun st (e : StageKind × Stage) => st.insert e.1 e.2) st) := by
  induction ks generalizing fs st with
  | nil =>
    obtain rfl := List.map_eq_nil_iff.1 hnames
    rfl
  | cons k ks ih =>
    obtain ⟨f, fs, rfl, hf, hfs⟩ := List.map_eq_cons_iff.1 hnames
    obtain ⟨hentry, hkind, -⟩ := entryWord_class (hknown k List.mem_cons_self)
    have hnone := hnew k List.mem_cons_self
    obtain ⟨hk, honce'⟩ := List.nodup_cons.1 honce
    have hadd : sc.addStage st f = .ok (st.insert k (newStage k (entryWord k).bytes st.size)) := by
      simp only [addStage, hf, hentry, hkind, hnone, if_true]
    have hsize : (st.insert k (newStage k (entryWord k).bytes st.size)).size = st.size + 1 :=
      (Dict.toList_insert_perm hnone _).length_eq
    have hnew' : ∀ k' ∈ ks, (st.insert k (newStage k (entryWord k).bytes st.size)).get? k' = none := by
      intro k' hk'
      have hne : k' ≠ k := by
        rintro rfl
        exact hk hk'
      rw [Dict.get?_insert, if_neg hne]
      exact hnew k' (List.mem_cons_of_mem k hk')
    rw [foldlM_of_ok hadd, ih hfs (fun k hk => hknown k (List.mem_cons_of_mem _ hk)) honce' hnew', hsize]
    rfl

/-- The stages with the vertex inputs. -/
def withInputs (is : List Input) (st : Stages) : Stages :=
  st.mapValues fun k stage =>
    if k = .vertex then
      { stage with
        inputs := some (is.map Input.slot), inputsSizePerVertex := some (totalSize (is.map fun i => i.type.type)) }
    else stage

theorem addVertexInputs_of_reads {b : StructBlock} {name : Word} {is : List Input}
    (h : b.Reads (name, is.map Input.declaration)) (st : Stages) :
    sc.addVertexInputs st b = .ok (withInputs is st) := by
  unfold addVertexInputs
  cases hget : st.get? .vertex with
  | none =>
    refine congrArg Except.ok (Dict.ext_get? fun k => ?_)
    rw [withInputs, Dict.get?_mapValues]
    by_cases hk : k = .vertex
    · rw [hk, hget]
      rfl
    · cases st.get? k <;> simp [hk]
  | some stage =>
    obtain ⟨fs, hfs, hall⟩ := fields_of_reads sc h
    simp only [hfs, vertexInputs_of_reads sc hall, bind, Except.bind, pure, Except.pure]
    refine congrArg Except.ok (Dict.ext_get? fun k => ?_)
    rw [withInputs, Dict.get?_mapValues, Dict.get?_insert]
    have hsize : (is.map Input.slot).foldr (fun i n => (i.type.size : Int) + n) 0 =
        totalSize (is.map fun i => i.type.type) := by
      rw [foldr_size VertexInput.type, List.map_map]
      rfl
    by_cases hk : k = .vertex
    · rw [hk, hget]
      simp [hsize]
    · cases st.get? k <;> simp [hk]

end Scene

def Description.discoveredTable (d : Description) : Stages :=
  Dict.ofList (d.stages.zipIdx.map fun x => (x.1, Scene.newStage x.1 (entryWord x.1).bytes x.2))

theorem Description.withInputs_discoveredTable (d : Description) :
    Scene.withInputs d.inputs d.discoveredTable = d.stageTable := by
  have hkeys :
      ((d.stages.zipIdx.map fun x => (x.1, Scene.newStage x.1 (entryWord x.1).bytes x.2)).map (·.1)).Nodup := by
    rw [List.map_map]
    simpa [Function.comp_def] using d.once
  rw [Scene.withInputs, discoveredTable, Dict.mapValues_ofList _ hkeys, List.map_map, stageTable]
  refine congrArg Dict.ofList (List.map_congr_left fun x _ => ?_)
  by_cases hk : x.1 = .vertex
  · simp [Scene.newStage, Description.stage, hk]
  · simp [Scene.newStage, Description.stage, hk]

/-! ## The survey of the structs -/

namespace Description

variable (d : Description)

theorem mem_structs {x : Word × List Declaration} :
    x ∈ d.structs ↔ x = (resourcesWord, d.resources.map Resource.declaration) ∨
      x = (vertexInputWord, d.inputs.map Input.declaration) ∨
        ∃ r ∈ d.resources, ∃ ms, r.layout = some ms ∧ x = (r.exportName, ms.map Member.declaration) := by
  simp only [structs, List.mem_cons, List.mem_filterMap, Resource.layoutStruct?, Option.map_eq_some_iff]
  refine or_congr Iff.rfl (or_congr Iff.rfl ?_)
  constructor
  · rintro ⟨r, hr, ms, hms, rfl⟩
    exact ⟨r, hr, ms, hms, rfl⟩
  · rintro ⟨r, hr, ms, hms, rfl⟩
    exact ⟨r, hr, ms, hms, rfl⟩

theorem structs_nodup : (d.structs.map fun x => x.1.bytes).Nodup := by
  have hlayouts : ((d.resources.filterMap Resource.layoutStruct?).map fun x => x.1.bytes).Sublist
      (d.resources.map fun r => r.exportName.bytes) := by
    have hall : ∀ rs : List Resource, ((rs.filterMap Resource.layoutStruct?).map fun x => x.1.bytes).Sublist
        (rs.map fun r => r.exportName.bytes) := by
      intro rs
      induction rs with
      | nil => exact .slnil
      | cons r rs ih =>
        cases hr : r.layout with
        | none =>
          rw [List.filterMap_cons_none (by simp [Resource.layoutStruct?, hr])]
          exact ih.cons _
        | some ms =>
          rw [List.filterMap_cons_some (by simp [Resource.layoutStruct?, hr]; rfl)]
          exact ih.cons_cons _
    exact hall d.resources
  have hfree : ∀ name ∈ reservedStructs,
      name ∉ (d.resources.filterMap Resource.layoutStruct?).map fun x => x.1.bytes := by
    intro name hname hmem
    obtain ⟨r, hr, rfl⟩ := List.mem_map.1 (hlayouts.subset hmem)
    exact d.unreserved r hr hname
  simp only [structs, List.map_cons, List.nodup_cons, List.mem_cons, not_or]
  refine ⟨⟨by decide, hfree _ (by simp [reservedStructs, resourcesWord])⟩,
    hfree _ (by simp [reservedStructs, vertexInputWord]), d.distinct.sublist hlayouts⟩

end Description

namespace Scene

variable (sc : Scene) (d : Description)

/-- One struct of a source of the description, which none before it has the name of. -/
theorem surveyStruct_of_reads {b : StructBlock} {x : Word × List Declaration} (hx : x ∈ d.structs) (h : b.Reads x)
    {v : Survey} (hnew : ∀ c ∈ v.seen, c.name ≠ b.name) :
    sc.surveyStruct v b = .ok
      { stages := if b.name = vertexInputStruct then withInputs d.inputs v.stages else v.stages
        seen := v.seen ++ [b]
        declarations := v.declarations ++ [b].filter fun c => isResourceDeclaration c.name } := by
  have hfind : v.seen.find? (·.name = b.name) = none := by
    simpa [List.find?_eq_none] using hnew
  rw [surveyStruct, hfind]
  rcases d.mem_structs.1 hx with rfl | rfl | ⟨r, hr, ms, -, rfl⟩
  · have hname : b.name = resourcesStruct := h.1
    have hother : resourcesStruct ≠ vertexInputStruct := by decide
    simp [hname, isResourceDeclaration, hother]
  · -- the inputs are read only if there is a vertex stage, and give the same stages in either case
    have hname : b.name = vertexInputStruct := h.1
    have hother : isResourceDeclaration vertexInputStruct = false := by decide
    simp [hname, hother, addVertexInputs_of_reads sc h, bind, Except.bind, pure, Except.pure]
  · have hname : b.name = r.exportName.bytes := h.1
    have hfree := d.unreserved r hr
    rw [← hname] at hfree
    simp only [reservedStructs, List.mem_cons, List.not_mem_nil, or_false, not_or] at hfree
    obtain ⟨h₁, h₂, h₃, h₄, h₅⟩ := hfree
    have hdeclaration : isResourceDeclaration b.name = false := by simp [isResourceDeclaration, h₁, h₂]
    have hstage : isInterStage b.name = false := by simp [isInterStage, h₄, h₅]
    simp [hdeclaration, h₃, hstage, layout_of_reads sc h, bind, Except.bind, pure, Except.pure]

theorem survey_of_reads {bs : List StructBlock} {xs : List (Word × List Declaration)}
    (hreads : List.Forall₂ StructBlock.Reads bs xs) (hxs : ∀ x ∈ xs, x ∈ d.structs)
    (hnames : (bs.map StructBlock.name).Nodup) {v : Survey} (hnew : ∀ c ∈ v.seen, ∀ b ∈ bs, c.name ≠ b.name) :
    bs.foldlM sc.surveyStruct v = .ok
      { stages :=
          if vertexInputStruct ∈ bs.map StructBlock.name then withInputs d.inputs v.stages else v.stages
        seen := v.seen ++ bs
        declarations := v.declarations ++ bs.filter fun c => isResourceDeclaration c.name } := by
  induction hreads generalizing v with
  | nil => simp [pure, Except.pure]
  | @cons b x bs xs hread _ ih =>
    obtain ⟨hb, hnames'⟩ := List.nodup_cons.1 hnames
    rw [foldlM_of_ok (surveyStruct_of_reads sc d (hxs x List.mem_cons_self) hread
      fun c hc => hnew c hc b List.mem_cons_self)]
    rw [ih (fun x hx => hxs x (List.mem_cons_of_mem _ hx)) hnames' (fun c hc b' hb' => ?_)]
    · have hdeclarations : [b].filter (fun c => isResourceDeclaration c.name) ++
          bs.filter (fun c => isResourceDeclaration c.name) =
            (b :: bs).filter fun c => isResourceDeclaration c.name := by
        rw [← List.filter_append, List.singleton_append]
      -- the inputs are taken once: the names behind this one differ from it
      by_cases hname : b.name = vertexInputStruct
      · rw [hname] at hb
        simp [hname, hb, ← hdeclarations]
      · simp [hname, Ne.symm hname, ← hdeclarations]
    · rcases List.mem_append.1 hc with hc | hc
      · exact hnew c hc b' (List.mem_cons_of_mem _ hb')
      · obtain rfl := List.mem_singleton.1 hc
        intro heq
        exact hb (List.mem_map.2 ⟨b', hb', heq.symm⟩)

end Scene

/-! ## Structs by name -/

section Structs

variable {d : Description} {bs : List StructBlock} {xs : List (Word × List Declaration)}

theorem names_of_reads (h : List.Forall₂ StructBlock.Reads bs xs) :
    bs.map StructBlock.name = xs.map fun x => x.1.bytes := by
  induction h with
  | nil => rfl
  | cons hread _ ih => rw [List.map_cons, List.map_cons, ih, hread.1]

theorem declarations_of_reads (h : List.Forall₂ StructBlock.Reads bs xs) (hperm : xs.Perm d.structs) :
    ∃ b, (bs.filter fun c => isResourceDeclaration c.name) = [b] ∧
      b.Reads (resourcesWord, d.resources.map Resource.declaration) := by
  have hdescribed : (d.structs.filter fun x => isResourceDeclaration x.1.bytes) =
      [(resourcesWord, d.resources.map Resource.declaration)] := by
    have hlayouts : ((d.resources.filterMap Resource.layoutStruct?).filter fun x => isResourceDeclaration x.1.bytes) =
        [] := by
      refine List.filter_eq_nil_iff.2 fun x hx hdecl => ?_
      obtain ⟨r, hr, hlayout⟩ := List.mem_filterMap.1 hx
      obtain ⟨ms, -, rfl⟩ := Option.map_eq_some_iff.1 hlayout
      refine d.unreserved r hr ?_
      simp only [isResourceDeclaration, Bool.or_eq_true, decide_eq_true_eq] at hdecl
      rcases hdecl with hname | hname <;> simp [reservedStructs, hname]
    have hfirst : isResourceDeclaration resourcesWord.bytes = true := by decide
    have hsecond : isResourceDeclaration vertexInputWord.bytes = false := by decide
    rw [Description.structs, List.filter_cons_of_pos (by exact hfirst), List.filter_cons_of_neg (by simp [hsecond]),
      hlayouts]
  have hfilter := hperm.filter fun x => isResourceDeclaration x.1.bytes
  rw [hdescribed] at hfilter
  have hfound : List.Forall₂ StructBlock.Reads (bs.filter fun c => isResourceDeclaration c.name)
      (xs.filter fun x => isResourceDeclaration x.1.bytes) :=
    List.rel_filter (fun b x hbx => by simp only [hbx.1]) h
  rw [List.perm_singleton.1 hfilter] at hfound
  obtain ⟨b, rest, hb, hrest, heq⟩ := List.forall₂_cons_right_iff.1 hfound
  cases hrest
  exact ⟨b, heq, hb⟩

/-- The struct of an exported name is the one of its layout, if it has any. -/
theorem find_of_reads (h : List.Forall₂ StructBlock.Reads bs xs) (hperm : xs.Perm d.structs) {r : Resource}
    (hr : r ∈ d.resources) :
    (r.layout = none ∧ bs.find? (·.name = r.exportName.bytes) = none) ∨
      ∃ b ms, r.layout = some ms ∧ bs.find? (·.name = r.exportName.bytes) = some b ∧
        b.Reads (r.exportName, ms.map Member.declaration) := by
  obtain ⟨hcomplete, hread⟩ := exists_of_forall₂ h
  cases hlayout : r.layout with
  | none =>
    refine .inl ⟨rfl, List.find?_eq_none.2 fun b hb => ?_⟩
    obtain ⟨x, hx, hbx⟩ := hread b hb
    simp only [decide_eq_true_eq, hbx.1]
    intro hname
    rcases d.mem_structs.1 (hperm.mem_iff.1 hx) with rfl | rfl | ⟨r', hr', ms, hms, rfl⟩
    · exact d.unreserved r hr (hname ▸ by simp [reservedStructs, resourcesWord])
    · exact d.unreserved r hr (hname ▸ by simp [reservedStructs, vertexInputWord])
    · obtain rfl := List.inj_on_of_nodup_map d.distinct hr' hr hname
      rw [hlayout] at hms
      cases hms
  | some ms =>
    have hmem : (r.exportName, ms.map Member.declaration) ∈ d.structs :=
      d.mem_structs.2 (.inr (.inr ⟨r, hr, ms, hlayout, rfl⟩))
    obtain ⟨c, hc, hcx⟩ := hcomplete _ (hperm.mem_iff.2 hmem)
    have hnames : (bs.map StructBlock.name).Nodup := by
      rw [names_of_reads h]
      exact ((hperm.map _).nodup_iff).2 d.structs_nodup
    have hfind := find?_of_nodup hnames hc
    rw [hcx.1] at hfind
    exact .inr ⟨c, ms, rfl, hfind, hcx⟩

end Structs

/-! ## Exports -/

/-- An export as the resource declaration alone gives it. -/
def declaredExport (binding : Nat) : Export := { binding := some binding, type := .nonUniform }

theorem Scene.addExports_of_reads (sc : Scene) {b : StructBlock} {rs : List Resource} {fs : List Field}
    (h : List.Forall₂ Field.Reads fs (rs.map Resource.declaration))
    (hdistinct : (rs.map fun r => r.exportName.bytes).Nodup) (binding : Nat) {e : Exports}
    (hnew : ∀ r ∈ rs, e.get? r.exportName.bytes = none) :
    sc.addExports b binding e fs =
      .ok (((rs.zipIdx binding).map fun x => (x.1.exportName.bytes, some (declaredExport x.2))).foldl
        (fun e (y : Bytes × Option Export) => e.insert y.1 y.2) e) := by
  induction rs generalizing fs binding e with
  | nil =>
    cases h
    rfl
  | cons r rs ih =>
    obtain ⟨f, fs, hf, hfs, rfl⟩ := List.forall₂_cons_right_iff.1 h
    obtain ⟨hr, hdistinct'⟩ := List.nodup_cons.1 hdistinct
    have hname : normalizeName f.name = r.exportName.bytes := congrArg normalizeName hf.2.1
    have hcontains : e.contains r.exportName.bytes = false := by
      simp [Dict.contains, hnew r List.mem_cons_self]
    have hnew' : ∀ r' ∈ rs,
        (e.insert r.exportName.bytes (some (declaredExport binding))).get? r'.exportName.bytes = none := by
      intro r' hr'
      have hne : r'.exportName.bytes ≠ r.exportName.bytes := fun heq => hr (List.mem_map.2 ⟨r', hr', heq⟩)
      rw [Dict.get?_insert, if_neg hne]
      exact hnew r' (List.mem_cons_of_mem r hr')
    rw [addExports, fieldType_of_reads sc hf (t := uintType) rfl]
    simp only [bind, Except.bind, uintType, ne_eq, not_true_eq_false, if_false, hname, hcontains]
    exact ih hfs hdistinct' (binding + 1) hnew'

/-- The layout that the description has for an exported name. -/
def Description.layout? (d : Description) (name : Bytes) : Option (List Member) :=
  (d.resources.find? fun r => r.exportName.bytes = name).bind Resource.layout

theorem Description.layout?_exportName (d : Description) {r : Resource} (hr : r ∈ d.resources) :
    d.layout? r.exportName.bytes = r.layout := by
  rw [Description.layout?, find?_of_nodup d.distinct hr]
  rfl

/-- An entry with the layout of its name. -/
def attached (layout : Option (List Member)) (entry : Option Export) : Option Export :=
  match layout with
  | none => entry
  | some ms =>
    some { entry.getD {} with
      type := .uniform, elements := some (layoutElements 0 ms), sizeInBytes := some (layoutSize ms) }

theorem size_layoutElements (start : Int) (ms : List Member) :
    (layoutElements start ms).foldr (fun e n => (e.type.size : Int) + n) 0 = layoutSize ms := by
  have htypes : (layoutElements start ms).map ExportElement.type = ms.map fun m => m.type.type := by
    refine List.ext_getElem? fun i => ?_
    simp [layoutElements, Function.comp_def]
  rw [foldr_size ExportElement.type, htypes, layoutSize]

namespace Scene

variable (sc : Scene)

theorem attachLayouts_of_found {layout? : Bytes → Option (List Member)} {v : Survey} (declaration : Option StructBlock)
    {l : List (Bytes × Option Export)} (hkeys : (l.map (·.1)).Nodup)
    (hfound : ∀ x ∈ l, (layout? x.1 = none ∧ layoutStruct? v x.1 = none) ∨
      ∃ b ms, layout? x.1 = some ms ∧ layoutStruct? v x.1 = some b ∧ sc.layout b = .ok (layoutElements 0 ms))
    {e : Exports} (hentry : ∀ x ∈ l, e.get? x.1 = some x.2) :
    ∃ notes, sc.attachLayouts false v declaration l e =
      (notes, .ok (l.foldl (fun e (x : Bytes × Option Export) => e.insert x.1 (attached (layout? x.1) x.2)) e)) := by
  induction l generalizing e with
  | nil => exact ⟨[], rfl⟩
  | cons x l ih =>
    obtain ⟨name, entry⟩ := x
    obtain ⟨hname, hkeys'⟩ := List.nodup_cons.1 hkeys
    have hrest := fun x hx => hfound x (List.mem_cons_of_mem _ hx)
    have hentry' : ∀ u, ∀ x ∈ l, (e.insert name u).get? x.1 = some x.2 := by
      intro u x hx
      have hne : x.1 ≠ name := fun heq => hname (List.mem_map.2 ⟨x, hx, heq⟩)
      rw [Dict.get?_insert, if_neg hne]
      exact hentry x (List.mem_cons_of_mem _ hx)
    rcases hfound _ List.mem_cons_self with ⟨hnone, hstruct⟩ | ⟨b, ms, hsome, hstruct, hlayout⟩
    · -- nothing is put in, which is the same as putting in what is there
      have hsame : e.insert name entry = e := Dict.insert_of_get? (hentry _ List.mem_cons_self)
      obtain ⟨notes, hnotes⟩ := ih hkeys' hrest (hentry' entry)
      rw [hsame] at hnotes
      refine ⟨.withoutLayout name :: notes, ?_⟩
      simp only [attachLayouts, hstruct, hnotes, List.foldl_cons, hnone, attached, hsame]
      rfl
    · obtain ⟨notes, hnotes⟩ := ih hkeys' hrest (hentry' (attached (some ms) entry))
      refine ⟨notes, ?_⟩
      simp only [attachLayouts, hstruct, hlayout, size_layoutElements, List.foldl_cons, hsome]
      exact hnotes

end Scene

namespace Description

variable (d : Description)

def declaredTable : Exports :=
  Dict.ofList (d.resources.zipIdx.map fun x => (x.1.exportName.bytes, some (declaredExport x.2)))

theorem declared_nodup :
    ((d.resources.zipIdx.map fun x => (x.1.exportName.bytes, some (declaredExport x.2))).map (·.1)).Nodup := by
  have hnames := d.distinct
  rw [← List.zipIdx_map_fst 0 d.resources, List.map_map] at hnames
  rw [List.map_map]
  exact hnames

theorem exists_of_mem_declaredTable {x : Bytes × Option Export} (h : x ∈ d.declaredTable.toList) :
    ∃ r ∈ d.resources, r.exportName.bytes = x.1 := by
  obtain ⟨y, hy, rfl⟩ := List.mem_map.1 ((Dict.toList_ofList_perm d.declared_nodup).mem_iff.1 h)
  exact ⟨y.1, List.fst_mem_of_mem_zipIdx hy, rfl⟩

theorem attached_declaredTable :
    d.declaredTable.mapValues (fun name entry => attached (d.layout? name) entry) = d.exportTable := by
  rw [declaredTable, Dict.mapValues_ofList _ d.declared_nodup, List.map_map, exportTable]
  refine congrArg Dict.ofList (List.map_congr_left fun x hx => ?_)
  have hlayout := d.layout?_exportName (List.fst_mem_of_mem_zipIdx hx)
  simp only [Function.comp_apply, hlayout]
  cases hr : x.1.layout <;> simp [attached, declaredExport, Resource.exported, hr]

end Description

/-! ## The whole source -/

theorem blankComments_of_not_mem {s : Bytes} (h : Bytes.slash ∉ s) : blankComments s = s := by
  unfold blankComments
  induction s with
  | nil => rfl
  | cons b s ih =>
    obtain ⟨hb, hs⟩ : b ≠ Bytes.slash ∧ Bytes.slash ∉ s := by
      simpa [eq_comm] using h
    rw [blankFrom, ih hs]
    · rintro s' rfl -
      exact hb rfl
    · rintro s' rfl -
      exact hb rfl

namespace Description

variable {d : Description} {text : Bytes}

theorem structs_of_perm {bs : List Block} (h : bs.Perm d.blocks) : (bs.filterMap Block.struct?).Perm d.structs := by
  have hdescribed : d.blocks.filterMap Block.struct? = d.structs := by
    rw [blocks, List.filterMap_append, List.filterMap_map, List.filterMap_map]
    simp [Function.comp_def, Block.struct?]
  exact hdescribed ▸ h.filterMap Block.struct?

theorem entry_of_perm {bs : List Block} (h : bs.Perm d.blocks) {w : Word} (hw : .function w ∈ bs) :
    w.bytes ≠ structWord.bytes := by
  have hmem : Block.function w ∈ d.blocks := h.mem_iff.1 hw
  obtain ⟨k, hk, rfl⟩ : ∃ k ∈ d.stages, entryWord k = w := by simpa [blocks] using hmem
  exact (entryWord_class (d.known k hk)).2.2

theorem Prints.plain (h : d.Prints text) : octet '#' ∉ text ∧ Bytes.slash ∉ text := by
  obtain ⟨bs, -, -, hspelled⟩ := h
  constructor
  · exact hspelled.not_mem (by decide) (by decide) fun m _ => by cases m <;> decide
  · exact hspelled.not_mem (by decide) (by decide) fun m _ => by cases m <;> decide

end Description

namespace Scene

variable (sc : Scene) {d : Description}

theorem stages_of_prints {bs : List Block} (hfunctions : bs.filterMap Block.function? = d.stages.map entryWord)
    (hspelled : Spelled (bs.flatMap Block.tokens) sc.text) :
    sc.stages = .ok d.discoveredTable := by
  have hnames : (functions sc.text).map Head.name = d.stages.map fun k => (entryWord k).bytes := by
    rw [functions_of_blocks hspelled, hfunctions, List.map_map]
    rfl
  exact addStages_of_names sc hnames d.known d.once fun _ _ => rfl

theorem declarations_of_prints {bs : List Block} (hperm : bs.Perm d.blocks)
    (hfunctions : bs.filterMap Block.function? = d.stages.map entryWord)
    (hspelled : Spelled (bs.flatMap Block.tokens) sc.text) :
    ∃ survey b, sc.declarations = .ok (survey, some b, d.declaredTable) ∧
      survey.stages = d.stageTable ∧ survey.seen = ShaderForge.structs sc.text := by
  have hstructs := Description.structs_of_perm hperm
  have hreads := structs_of_blocks (fun w hw => Description.entry_of_perm hperm hw) hspelled
  have hnames : ((ShaderForge.structs sc.text).map StructBlock.name).Nodup := by
    rw [names_of_reads hreads]
    exact ((hstructs.map _).nodup_iff).2 d.structs_nodup
  have hinputs : vertexInputStruct ∈ (ShaderForge.structs sc.text).map StructBlock.name := by
    rw [names_of_reads hreads]
    refine List.mem_map.2 ⟨(vertexInputWord, d.inputs.map Input.declaration), hstructs.mem_iff.2 ?_, rfl⟩
    exact d.mem_structs.2 (.inr (.inl rfl))
  have hsurvey := survey_of_reads sc d hreads (fun x hx => hstructs.mem_iff.1 hx) hnames
    (v := { stages := d.discoveredTable }) (fun _ hc => absurd hc List.not_mem_nil)
  obtain ⟨b, hfilter, hb⟩ := declarations_of_reads hreads hstructs
  obtain ⟨fs, hfs, hall⟩ := fields_of_reads sc hb
  have hexports := addExports_of_reads sc (b := b) hall d.distinct 0 (e := Dict.empty) fun _ _ => rfl
  rw [if_pos hinputs, d.withInputs_discoveredTable, hfilter] at hsurvey
  refine ⟨⟨d.stageTable, ShaderForge.structs sc.text, [b]⟩, b, ?_, rfl, rfl⟩
  rw [declarations, stages_of_prints sc hfunctions hspelled]
  simp only [bind, Except.bind, survey, hsurvey, List.nil_append, theDeclaration, declaredExports, hfs, hexports]
  rfl

theorem read_of_prints {text : Bytes} (h : d.Prints text) (map : SourceMap) :
    ∃ notes, read false ⟨text, map⟩ = (notes, .ok ⟨d.stageTable, d.exportTable, text, map⟩) := by
  have hscene : ofMerged ⟨text, map⟩ = ⟨text, map⟩ := by
    rw [ofMerged, blankComments_of_not_mem h.plain.2]
  obtain ⟨bs, hperm, hfunctions, hspelled⟩ := h
  obtain ⟨survey, b, hdeclarations, hstages, hseen⟩ := declarations_of_prints ⟨text, map⟩ hperm hfunctions hspelled
  have hreads := structs_of_blocks (fun w hw => Description.entry_of_perm hperm hw) hspelled
  have hstructs := Description.structs_of_perm hperm
  have hlisted : d.declaredTable.ordered.Perm d.declaredTable.toList := sortBy_perm _
  have hfound : ∀ x ∈ d.declaredTable.ordered, (d.layout? x.1 = none ∧ layoutStruct? survey x.1 = none) ∨
      ∃ b ms, d.layout? x.1 = some ms ∧ layoutStruct? survey x.1 = some b ∧
        layout ⟨text, map⟩ b = .ok (layoutElements 0 ms) := by
    intro x hx
    obtain ⟨r, hr, hname⟩ := d.exists_of_mem_declaredTable (hlisted.mem_iff.1 hx)
    have hfree := d.unreserved r hr
    simp only [reservedStructs, List.mem_cons, not_or] at hfree
    have hdeclaration : isResourceDeclaration r.exportName.bytes = false := by
      simp [isResourceDeclaration, hfree.1, hfree.2.1]
    rw [← hname, d.layout?_exportName hr, layoutStruct?, hdeclaration, hseen]
    rcases find_of_reads hreads hstructs hr with hnone | ⟨b, ms, hlayout, hfind, hb⟩
    · exact .inl hnone
    · exact .inr ⟨b, ms, hlayout, hfind, layout_of_reads _ hb⟩
  have hkeys : (d.declaredTable.ordered.map (·.1)).Nodup :=
    ((hlisted.map _).nodup_iff).2 d.declaredTable.ascending.nodup
  obtain ⟨notes, hattached⟩ := attachLayouts_of_found ⟨text, map⟩ (some b) hkeys hfound fun x hx =>
    Dict.get?_eq_some_iff.2 (hlisted.mem_iff.1 hx)
  rw [Dict.foldl_insert_of_perm (fun name entry => attached (d.layout? name) entry) hlisted,
    d.attached_declaredTable] at hattached
  simp only [read, hscene, hdeclarations, hattached, hstages]
  exact ⟨_, rfl⟩

end Scene

variable {σ : Type}

theorem recover_of_read (host : Host (StateM σ)) {opts : ParseOptions} {merged : Merged} {notes : List ParseNote}
    {r : Recovered} (h : Scene.read opts.strict merged = (notes, .ok r)) (s : σ) :
    ∃ s', (recover host opts merged).run.run s = (.ok r, s') := by
  have hrun := run_recover host opts merged s
  rw [h] at hrun
  exact ⟨_, Prod.ext hrun rfl⟩

/-- Every source of a description is parsed, and what is recovered is what was described: the stages with their
buffers in the order of the functions, and the exports with their bindings in the order of the fields. -/
theorem parseText_of_prints (host : Host (StateM σ)) (opts : ParseOptions) (hstrict : opts.strict = false)
    (path : Path) (d : Description) (text : Bytes) (h : d.Prints text) (s : σ) :
    ∃ r s', (parseText host opts path text).run.run s = (.ok r, s') ∧
      r.stages = d.stageTable ∧ r.exports = d.exportTable ∧ r.source = text := by
  have hlines : ∀ line ∈ Bytes.lines text, DirectiveFree line := by
    intro line hline
    exact directiveFree_of_not_mem fun hmem => h.plain.1 (Bytes.subset_of_mem_split hline hmem)
  obtain ⟨map, hmerged⟩ := resolveText_of_free host opts.toIncludeOptions path hlines s
  obtain ⟨notes, hread⟩ := Scene.read_of_prints h map
  rw [← hstrict] at hread
  obtain ⟨s', hrecovered⟩ := recover_of_read host hread s
  refine ⟨⟨d.stageTable, d.exportTable, text, map⟩, s', ?_, rfl, rfl, rfl⟩
  rw [parseText, Merge.run_bind_of_ok hmerged]
  exact hrecovered

/-- Both stages, the pixel stage first, before the structs; a resource with a layout and one without. -/
theorem parseText_of_prints_reordered :
    let shelf : Shelf := { read := fun p => .error ⟨"open", p, .absent⟩, present := fun _ => false }
    let d : Description :=
      { resources :=
          [ ⟨⟨"albedo", by decide⟩, none⟩,
            ⟨⟨"material", by decide⟩,
              some [⟨⟨⟨3⟩, by decide⟩, ⟨"tint", by decide⟩⟩, ⟨⟨⟨8⟩, by decide⟩, ⟨"lit", by decide⟩⟩]⟩ ]
        inputs := [⟨⟨⟨2⟩, by decide⟩, ⟨"position", by decide⟩, ⟨"POSITION", by decide⟩⟩]
        stages := [.pixel, .vertex]
        distinct := by decide +kernel
        unreserved := by decide +kernel
        known := by decide
        once := by decide }
    let text : Bytes := "float4 ps_main ()\x7b\x7dfloat4 vs_main ()\x7b\x7d" ++
      "struct ShaderResources \x7buint albedo ;uint material ;\x7d;" ++
      "struct VSInput \x7bfloat3 position :POSITION ;\x7d;struct Material \x7bfloat4 tint ;bool lit ;\x7d;"
    d.Prints text ∧ ∃ r s', (parseText shelf.host { cwd := "/" } "/r" text).run.run () = (.ok r, s') ∧
      r.stages = d.stageTable ∧ r.exports = d.exportTable ∧ r.source = text := by
  intro shelf d text
  have hprints : d.Prints text := by
    refine ⟨(d.stages.map fun k => .function (entryWord k)) ++ d.structs.map fun s => .struct s.1 s.2,
      List.perm_append_comm, rfl, ?_⟩
    have htext : text = spellOut (((d.stages.map fun k => Block.function (entryWord k)) ++
        d.structs.map fun s => Block.struct s.1 s.2).flatMap Block.tokens) := by decide +kernel
    rw [htext]
    exact spelled_spellOut _
  exact ⟨hprints, parseText_of_prints shelf.host { cwd := "/" } rfl "/r" d text hprints ()⟩

end ShaderForge
