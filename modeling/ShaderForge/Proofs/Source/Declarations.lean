import ShaderForge.Proofs.Shader.MetadataWriting
import ShaderForge.Source.Structure

/-!
# ShaderForge.Proofs.Source.Declarations

What can be recovered from a source, whatever it says.

* `Stages.Discovered` — each stage stands under the kind of its entry point, and buffers count from zero.
* `Exports.Declared`  — each export has a description, with a binding below their number.
* `Scene.attachLayouts_eq` — layouts are attached to one export after the other.
* `Scene.read_wellFormed` — everything recovered is of that form.
-/

namespace ShaderForge

/-! ## Words -/

/-- A run of letters, digits and underscores. -/
def IsWord (s : Bytes) : Prop := ∀ b ∈ s, isWordByte b = true

theorem IsWord.isValid {s : Bytes} (h : IsWord s) : Utf8.isValid s = true := by
  have hascii : ∀ b : UInt8, isWordByte b = true → b < 0x80 := by
    intro b hb
    have hunderscore : (octet '_').toNat = 0x5F := by decide
    simp only [isWordByte, isIdentifierStart, Bytes.isLetter, Bytes.isLower, Bytes.isUpper, Bytes.isDigit,
      Bool.or_eq_true, Bool.and_eq_true, decide_eq_true_eq, UInt8.le_iff_toNat_le,
      ← UInt8.toNat_inj, UInt8.reduceToNat] at hb
    simp only [UInt8.lt_iff_toNat_lt, UInt8.reduceToNat]
    omega
  exact Utf8.isValid_of_ascii fun b hb => hascii b (h b hb)

/-- A word that does not begin with a digit. -/
def IsIdentifier (s : Bytes) : Prop := ∃ b w, s = b :: w ∧ isIdentifierStart b = true ∧ IsWord w

theorem IsIdentifier.isWord {s : Bytes} (h : IsIdentifier s) : IsWord s := by
  obtain ⟨b, w, rfl, hb, hw⟩ := h
  intro c hc
  rcases List.mem_cons.1 hc with rfl | hc
  · simp [isWordByte, hb]
  · exact hw c hc

theorem IsIdentifier.ne_nil {s : Bytes} (h : IsIdentifier s) : s ≠ [] := by
  obtain ⟨b, w, rfl, _, _⟩ := h
  exact List.cons_ne_nil b w

theorem isIdentifier_of_identifier? {s w rest : Bytes} (h : identifier? s = some (w, rest)) : IsIdentifier w := by
  unfold identifier? at h
  split at h
  · rename_i b s
    split at h
    · rename_i hb
      cases h
      refine ⟨b, s.takeWhile isWordByte, ?_, hb, List.all_eq_true.1 List.all_takeWhile⟩
      rw [List.takeWhile_cons_of_pos]
      simp [isWordByte, hb]
    · cases h
  · cases h

/-- The name and the semantic of a field are identifiers. -/
structure Field.Spelled (f : Field) : Prop where
  name : IsIdentifier f.name
  semantic : ∀ s ∈ f.semantic, IsIdentifier s

theorem isIdentifier_of_declaration? {s typeName name : Bytes} {semantic : Option Bytes}
    (h : declaration? s = some (typeName, name, semantic)) :
    IsIdentifier name ∧ ∀ w ∈ semantic, IsIdentifier w := by
  simp only [declaration?, Option.bind_eq_bind, Option.bind_eq_some_iff] at h
  obtain ⟨⟨t, rest⟩, ht, spaced, hspaced, ⟨n, rest'⟩, hn, h⟩ := h
  simp only at h
  split at h
  · cases h
    exact ⟨isIdentifier_of_identifier? hn, by simp⟩
  · split at h
    · simp only [Option.bind_eq_some_iff] at h
      obtain ⟨⟨w, tail⟩, hw, h⟩ := h
      simp only at h
      split at h
      · cases h
        refine ⟨isIdentifier_of_identifier? hn, fun v hv => ?_⟩
        cases hv
        exact isIdentifier_of_identifier? hw
      · cases h
    · cases h

theorem spelled_of_field? {offset : Nat} {s : Bytes} {f : Field} (h : field? offset s = .ok (some f)) :
    f.Spelled := by
  unfold field? at h
  simp only at h
  split at h
  · cases h
  · split at h
    · rename_i hd
      cases h
      obtain ⟨hname, hsemantic⟩ := isIdentifier_of_declaration? hd
      exact ⟨hname, hsemantic⟩
    · cases h

theorem spelled_of_fieldsFrom {offset : Nat} {ds : List Bytes} {fs : List Field}
    (h : fieldsFrom offset ds = .ok fs) : ∀ f ∈ fs, f.Spelled := by
  fun_induction fieldsFrom offset ds generalizing fs with
  | case1 =>
    cases h
    simp
  | case2 =>
    cases h
    simp
  | case3 => cases h
  | case4 offset s rest _ ih =>
    obtain ⟨first, hfirst, h⟩ := bind_eq_ok_iff.1 h
    obtain ⟨more, hmore, h⟩ := bind_eq_ok_iff.1 h
    cases h
    intro f hf
    rcases List.mem_append.1 hf with hf | hf
    · rw [Option.mem_toList] at hf
      cases hf
      exact spelled_of_field? hfirst
    · exact ih hmore f hf

theorem Scene.spelled_of_fields {sc : Scene} {b : StructBlock} {fs : List Field}
    (h : sc.fields b = .ok fs) : ∀ f ∈ fs, f.Spelled := by
  unfold Scene.fields at h
  split at h
  · rename_i hfs
    cases h
    exact spelled_of_fieldsFrom hfs
  · cases h

/-- The name and the semantic of a field are words. -/
structure Field.Worded (f : Field) : Prop where
  name : IsWord f.name
  semantic : ∀ s ∈ f.semantic, IsWord s

theorem Scene.worded_of_fields {sc : Scene} {b : StructBlock} {fs : List Field}
    (h : sc.fields b = .ok fs) : ∀ f ∈ fs, f.Worded :=
  fun f hf => ⟨(spelled_of_fields h f hf).name.isWord,
    fun s hs => ((spelled_of_fields h f hf).semantic s hs).isWord⟩

theorem isValid_capitalize {s : Bytes} (h : Utf8.isValid s = true) : Utf8.isValid s.capitalize = true := by
  obtain ⟨cs, rfl⟩ := Utf8.isValid_iff.1 h
  unfold Bytes.capitalize
  cases cs with
  | nil => exact h
  | cons c cs =>
    rw [List.flatMap_cons, Utf8.front?_encode_append]
    simp only
    split
    · exact h
    · rw [List.drop_left]
      exact Utf8.isValid_iff.2 ⟨upper c :: cs, rfl⟩

/-! ## Types -/

theorem DataType.size_le (t : DataType) : t.size ≤ 64 := by
  have hall : ∀ i ∈ table, i.size ≤ 64 := by decide
  unfold size
  cases h : t.info? with
  | none => simp
  | some i => exact hall i (List.mem_of_getElem? h)

theorem Scene.known_of_fieldType {sc : Scene} {f : Field} {t : DataType} (h : sc.fieldType f = .ok t) :
    t.Known := by
  unfold Scene.fieldType at h
  split at h
  · rename_i hword
    cases h
    exact DataType.known_of_ofInfo? hword
  · cases h

theorem sum_sizes_le {α : Type} (type : α → DataType) (l : List α) :
    0 ≤ l.foldr (fun a n => ((type a).size : Int) + n) 0 ∧
      l.foldr (fun a n => ((type a).size : Int) + n) 0 ≤ 64 * l.length := by
  induction l with
  | nil => simp
  | cons a l ih =>
    have ha := (type a).size_le
    simp only [List.foldr_cons, List.length_cons]
    omega

/-! ## Stages -/

/-- The inputs of a stage have known types and readable semantics, and their number bounds their size. -/
structure Stage.Declared (st : Stage) : Prop where
  inputs : ∀ i ∈ st.inputs.getD [], i.type.Known ∧ Utf8.isValid i.semantic = true
  size : ∀ n ∈ st.inputsSizePerVertex, 0 ≤ n ∧ n ≤ 64 * (st.inputs.getD []).length

/-- Stages as they are found in a source: each under the kind of its entry point, and with the number of those
found before it as its buffer. -/
structure Stages.Discovered (s : Stages) : Prop where
  kinds : ∀ e ∈ s.toList, StageKind.ofEntryPoint? e.2.entryPoint = some e.1
  buffers : (s.toList.map (·.2.buffer)).Perm ((List.range s.size).map Int.ofNat)
  declared : ∀ e ∈ s.toList, e.2.Declared

theorem Stages.Discovered.of_insert {s : Stages} {k : StageKind} {st : Stage} (h : s.Discovered)
    (hmap : (s.insert k st).toList.map (fun e => (e.1, e.2.entryPoint, e.2.buffer)) =
      s.toList.map fun e => (e.1, e.2.entryPoint, e.2.buffer)) (hst : st.Declared) :
    Discovered (s.insert k st) where
  kinds e he := by
    have hmem := List.mem_map_of_mem (f := fun e : StageKind × Stage =>
      (e.1, e.2.entryPoint, e.2.buffer)) he
    rw [hmap] at hmem
    obtain ⟨e', he', heq⟩ := List.mem_map.1 hmem
    simp only [Prod.mk.injEq] at heq
    rw [← heq.1, ← heq.2.1]
    exact h.kinds e' he'
  buffers := by
    have hlen := congrArg List.length hmap
    rw [List.length_map, List.length_map] at hlen
    have hbuffers := congrArg (List.map (·.2.2)) hmap
    rw [List.map_map, List.map_map] at hbuffers
    rw [Dict.size, hlen]
    exact (List.Perm.of_eq hbuffers).trans h.buffers
  declared e he := by
    rcases mem_insertEntry he with rfl | he
    · exact hst
    · exact h.declared e he

namespace Scene

variable {sc : Scene}

theorem discovered_empty : Stages.Discovered Dict.empty :=
  ⟨fun _ he => absurd he List.not_mem_nil, List.Perm.refl _, fun _ he => absurd he List.not_mem_nil⟩

theorem declared_newStage (kind : StageKind) (entryPoint : Bytes) (buffer : Nat) :
    (newStage kind entryPoint buffer).Declared := by
  refine ⟨fun i hi => absurd hi List.not_mem_nil, fun n hn => ?_⟩
  simp only [newStage] at hn ⊢
  split at hn
  · cases hn
    simp
  · cases hn

theorem discovered_addStage {s s' : Stages} {f : Head} (hs : s.Discovered)
    (h : sc.addStage s f = .ok s') : s'.Discovered := by
  unfold addStage at h
  split at h
  · split at h
    · cases h
    rename_i kind hkind
    split at h
    · cases h
    rename_i hnew
    cases h
    have hperm := Dict.toList_insert_perm hnew (newStage kind f.name s.size)
    have hsize : (s.insert kind (newStage kind f.name s.size)).size = s.size + 1 := hperm.length_eq
    refine ⟨fun e he => ?_, ?_, fun e he => ?_⟩
    · rcases List.mem_cons.1 (hperm.mem_iff.1 he) with rfl | he
      · exact hkind
      · exact hs.kinds e he
    · -- the new buffer is the next number
      rw [hsize, List.range_succ, List.map_append]
      exact (hperm.map _).trans ((hs.buffers.cons _).trans (List.perm_append_singleton _ _).symm)
    · rcases List.mem_cons.1 (hperm.mem_iff.1 he) with rfl | he
      · exact declared_newStage _ _ _
      · exact hs.declared e he
  · cases h
    exact hs

theorem discovered_stages {s : Stages} (h : sc.stages = .ok s) : s.Discovered :=
  foldlM_keeps (fun _ _ _ _ hs hstep => discovered_addStage hs hstep) discovered_empty h

theorem declared_of_vertexInput {b : StructBlock} {f : Field} {i : VertexInput} (hf : f.Worded)
    (h : sc.vertexInput b f = .ok i) : i.type.Known ∧ Utf8.isValid i.semantic = true := by
  obtain ⟨type, htype, h⟩ := bind_eq_ok_iff.1 h
  split at h
  · rename_i semantic hsemantic
    cases h
    exact ⟨known_of_fieldType htype, (hf.semantic semantic hsemantic).isValid⟩
  · cases h

theorem discovered_addVertexInputs {s s' : Stages} {b : StructBlock} (hs : s.Discovered)
    (h : sc.addVertexInputs s b = .ok s') : s'.Discovered := by
  unfold addVertexInputs at h
  split at h
  · cases h
    exact hs
  rename_i stage hstage
  obtain ⟨fs, hfs, h⟩ := bind_eq_ok_iff.1 h
  obtain ⟨inputs, hinputs, h⟩ := bind_eq_ok_iff.1 h
  cases h
  generalize hnew : ({ stage with inputs := some inputs, inputsSizePerVertex := _ } : Stage) = new
  have hdeclared : new.Declared := by
    subst hnew
    refine ⟨fun i hi => ?_, fun n hn => ?_⟩
    · obtain ⟨f, hf, hi⟩ := (exists_of_mapM hinputs).1 i hi
      exact declared_of_vertexInput (worded_of_fields hfs f hf) hi
    · cases hn
      exact sum_sizes_le VertexInput.type inputs
  -- the entry point and the buffer of the stage stay
  have hmap := Dict.map_toList_insert (fun st : Stage => (st.entryPoint, st.buffer)) new hstage
    (by subst hnew; rfl)
  exact hs.of_insert hmap hdeclared

/-- What one struct adds to a survey: a resource declaration, vertex inputs, or nothing. -/
theorem surveyStruct_ok {v v' : Survey} {b : StructBlock} (h : sc.surveyStruct v b = .ok v') :
    (v'.stages = v.stages ∨ sc.addVertexInputs v.stages b = .ok v'.stages) ∧
      v'.declarations = v.declarations ++ [b].filter fun b => isResourceDeclaration b.name := by
  unfold surveyStruct at h
  split at h
  · cases h
  dsimp only at h
  split at h
  · rename_i hres
    cases h
    exact ⟨.inl rfl, by simp [hres]⟩
  rename_i hres
  split at h
  · obtain ⟨s, hs, h⟩ := bind_eq_ok_iff.1 h
    cases h
    exact ⟨.inr hs, by simp [hres]⟩
  split at h
  · cases h
    exact ⟨.inl rfl, by simp [hres]⟩
  · obtain ⟨_, _, h⟩ := bind_eq_ok_iff.1 h
    cases h
    exact ⟨.inl rfl, by simp [hres]⟩

theorem survey_keeps {P : Stages → Prop} (hstep : ∀ s s' b, P s → sc.addVertexInputs s b = .ok s' → P s')
    {s : Stages} {v : Survey} (hs : P s) (h : sc.survey s = .ok v) : P v.stages := by
  refine foldlM_keeps (P := fun v : Survey => P v.stages) (fun v b _ v' hv h => ?_) hs h
  rcases (surveyStruct_ok h).1 with hkept | hadded
  · exact hkept ▸ hv
  · exact hstep v.stages v'.stages b hv hadded

theorem discovered_survey {s : Stages} {v : Survey} (hs : s.Discovered) (h : sc.survey s = .ok v) :
    v.stages.Discovered :=
  survey_keeps (P := Stages.Discovered) (fun _ _ _ hs hstep => discovered_addVertexInputs hs hstep) hs h

end Scene

/-! ## Exports -/

/-- An export has one of `count` bindings; its elements have known types and readable names, and their number
bounds offsets and size. -/
structure Export.Declared (count : Nat) (x : Export) : Prop where
  binding : ∃ n : Nat, x.binding = some (n : Int) ∧ n < count
  type : Utf8.isValid x.type = true
  elements : ∀ e ∈ x.elements.getD [], e.type.Known ∧ Utf8.isValid e.name = true ∧
    0 ≤ e.offset ∧ e.offset ≤ 64 * (x.elements.getD []).length
  size : ∀ n ∈ x.sizeInBytes, 0 ≤ n ∧ n ≤ 64 * (x.elements.getD []).length

/-- Each export has a readable name and a description, with a binding below their number. -/
def Exports.Declared (e : Exports) : Prop :=
  ∀ x ∈ e.toList, Utf8.isValid x.1 = true ∧ ∃ d, x.2 = some d ∧ d.Declared e.size

theorem Export.Declared.mono {n m : Nat} {x : Export} (h : x.Declared n) (hnm : n ≤ m) : x.Declared m := by
  obtain ⟨i, hi, hlt⟩ := h.binding
  exact ⟨⟨i, hi, by omega⟩, h.type, h.elements, h.size⟩

theorem Exports.Declared.of_insert {e : Exports} (h : e.Declared) {name : Bytes} (hname : name ∈ e.keys)
    {x : Export} (hx : x.Declared e.size) : Exports.Declared (e.insert name (some x)) := by
  intro y hy
  rw [Dict.size_insert hname]
  rcases mem_insertEntry hy with rfl | hy
  · obtain ⟨old, hold, rfl⟩ := List.mem_map.1 hname
    exact ⟨(h old hold).1, x, rfl, hx⟩
  · exact h y hy

namespace Scene

variable {sc : Scene}

theorem declared_elementsFrom {offset : Nat} {fs : List Field} {es : List ExportElement}
    (hfs : ∀ f ∈ fs, f.Worded) (h : sc.elementsFrom offset fs = .ok es) :
    ∀ e ∈ es, e.type.Known ∧ Utf8.isValid e.name = true ∧ (offset : Int) ≤ e.offset ∧
      e.offset ≤ offset + 64 * es.length := by
  induction fs generalizing offset es with
  | nil =>
    cases h
    simp
  | cons f fs ih =>
    obtain ⟨type, htype, h⟩ := bind_eq_ok_iff.1 h
    obtain ⟨more, hmore, h⟩ := bind_eq_ok_iff.1 h
    cases h
    have hsize := type.size_le
    intro e he
    rcases List.mem_cons.1 he with rfl | he
    · refine ⟨known_of_fieldType htype, ?_, Int.le_refl _, ?_⟩
      · exact isValid_capitalize (hfs f List.mem_cons_self).name.isValid
      · simp only [List.length_cons]
        omega
    · obtain ⟨hknown, hname, hlo, hhi⟩ := ih (fun f hf => hfs f (List.mem_cons_of_mem _ hf)) hmore e he
      refine ⟨hknown, hname, ?_, ?_⟩
      · push_cast at hlo
        omega
      · simp only [List.length_cons]
        push_cast at hhi ⊢
        omega

theorem addExports_cons_ok {b : StructBlock} {binding : Nat} {f : Field} {fs : List Field} {e e' : Exports}
    (h : sc.addExports b binding e (f :: fs) = .ok e') :
    e.get? (normalizeName f.name) = none ∧
      sc.addExports b (binding + 1)
        (e.insert (normalizeName f.name) (some { binding := some (binding : Int), type := .nonUniform })) fs =
          .ok e' := by
  obtain ⟨type, -, h⟩ := bind_eq_ok_iff.1 h
  split at h
  · cases h
  dsimp only at h
  split at h
  · cases h
  rename_i hnew
  exact ⟨by simpa [Dict.contains] using hnew, h⟩

theorem declared_addExports {b : StructBlock} {binding : Nat} {fs : List Field} {e e' : Exports}
    (hfs : ∀ f ∈ fs, f.Worded) (he : e.Declared) (hbinding : binding = e.size)
    (h : sc.addExports b binding e fs = .ok e') : e'.Declared := by
  induction fs generalizing binding e with
  | nil =>
    cases h
    exact he
  | cons f fs ih =>
    obtain ⟨hnone, h⟩ := addExports_cons_ok h
    have hperm := Dict.toList_insert_perm hnone
      (some { binding := some (binding : Int), type := ResourceType.nonUniform })
    have hsize : Dict.size (e.insert (normalizeName f.name) _) = e.size + 1 := hperm.length_eq
    refine ih (fun f hf => hfs f (List.mem_cons_of_mem _ hf)) (fun x hx => ?_) ?_ h
    · rw [hsize]
      rcases List.mem_cons.1 (hperm.mem_iff.1 hx) with rfl | hx
      · refine ⟨isValid_capitalize (hfs f List.mem_cons_self).name.isValid, _, rfl, ?_⟩
        have hvalid : Utf8.isValid ResourceType.nonUniform = true := by decide
        exact ⟨⟨binding, rfl, by omega⟩, hvalid, fun e he => absurd he List.not_mem_nil,
          fun n hn => by cases hn⟩
      · obtain ⟨hname, d, hd, hdecl⟩ := he x hx
        exact ⟨hname, d, hd, hdecl.mono (by omega)⟩
    · omega

theorem declared_empty : Exports.Declared Dict.empty := fun _ hx => absurd hx List.not_mem_nil

theorem declared_declaredExports {declaration : Option StructBlock} {e : Exports}
    (h : sc.declaredExports declaration = .ok e) : e.Declared := by
  unfold declaredExports at h
  split at h
  · cases h
    exact declared_empty
  · obtain ⟨fs, hfs, h⟩ := bind_eq_ok_iff.1 h
    exact declared_addExports (worded_of_fields hfs) declared_empty rfl h

end Scene

/-! ## Layouts -/

/-- The description of an export that is given a layout. -/
def Export.laidOut (entry : Option Export) (elements : List ExportElement) : Export :=
  { entry.getD {} with
    type := .uniform, elements := some elements,
    sizeInBytes := some (elements.foldr (fun e n => (e.type.size : Int) + n) 0) }

namespace Scene

variable {sc : Scene} {strict : Bool} {v : Survey} {declaration : Option StructBlock} {e e' : Exports}
  {x : Bytes × Option Export}

/-- The exports with the layout of one of them attached. -/
def attachLayout (sc : Scene) (strict : Bool) (v : Survey) (declaration : Option StructBlock) (exports : Exports)
    (x : Bytes × Option Export) : Parsed Exports :=
  match layoutStruct? v x.1 with
  | none =>
    if strict then .error (sc.faultAt ((declaration.map StructBlock.offset).getD 0) (.missingLayout x.1))
    else .ok exports
  | some b => do return exports.insert x.1 (some (Export.laidOut x.2 (← sc.layout b)))

theorem attachLayouts_eq (sc : Scene) (strict : Bool) (v : Survey) (declaration : Option StructBlock)
    (rest : List (Bytes × Option Export)) (exports : Exports) :
    (sc.attachLayouts strict v declaration rest exports).2 =
      rest.foldlM (sc.attachLayout strict v declaration) exports := by
  induction rest generalizing exports with
  | nil => rfl
  | cons x rest ih =>
    obtain ⟨name, entry⟩ := x
    rw [attachLayouts, List.foldlM_cons, attachLayout]
    cases layoutStruct? v name with
    | none =>
      cases strict with
      | true => rfl
      | false => exact ih exports
    | some b =>
      dsimp only
      cases sc.layout b with
      | error fault => rfl
      | ok elements => exact ih _

/-- An export without a struct for its layout stays as it is; one with such a struct is laid out. -/
theorem attachLayout_ok (h : sc.attachLayout strict v declaration e x = .ok e') :
    layoutStruct? v x.1 = none ∧ strict = false ∧ e' = e ∨
      ∃ b elements, layoutStruct? v x.1 = some b ∧ sc.layout b = .ok elements ∧
        e' = e.insert x.1 (some (Export.laidOut x.2 elements)) := by
  unfold attachLayout at h
  cases hstruct : layoutStruct? v x.1 with
  | none =>
    rw [hstruct] at h
    cases strict with
    | true => cases h
    | false =>
      cases h
      exact .inl ⟨rfl, rfl, rfl⟩
  | some b =>
    rw [hstruct] at h
    obtain ⟨elements, hlayout, h⟩ := bind_eq_ok_iff.1 h
    cases h
    exact .inr ⟨b, elements, rfl, hlayout, rfl⟩

/-- A layout takes the place of an export that is there; bindings and names stay. -/
theorem declared_attachLayout (he : e.Declared) (hkey : x.1 ∈ e.keys) (hx : ∃ d, x.2 = some d ∧ d.Declared e.size)
    (h : sc.attachLayout strict v declaration e x = .ok e') : e'.Declared ∧ e'.keys = e.keys := by
  obtain ⟨-, -, rfl⟩ | ⟨b, elements, -, hlayout, rfl⟩ := attachLayout_ok h
  · exact ⟨he, rfl⟩
  obtain ⟨fs, hfs, hlayout⟩ := bind_eq_ok_iff.1 hlayout
  obtain ⟨d, hd, hdeclared⟩ := hx
  have hvalid : Utf8.isValid ResourceType.uniform = true := by decide
  refine ⟨he.of_insert hkey ?_, Dict.keys_insert hkey _⟩
  rw [hd]
  refine ⟨hdeclared.binding, hvalid, fun el hel => ?_, fun n hn => ?_⟩
  · obtain ⟨hknown, hname, hlo, hhi⟩ := declared_elementsFrom (worded_of_fields hfs) hlayout el hel
    refine ⟨hknown, hname, by omega, ?_⟩
    simp only [Export.laidOut, Option.getD_some]
    omega
  · cases hn
    exact sum_sizes_le ExportElement.type elements

theorem declared_attachLayouts {declared : Exports} (hdeclared : declared.Declared)
    (h : declared.ordered.foldlM (sc.attachLayout strict v declaration) declared = .ok e') : e'.Declared := by
  refine (foldlM_keeps (P := fun e : Exports => e.Declared ∧ e.keys = declared.keys) (fun e x hx e' he h => ?_)
    ⟨hdeclared, rfl⟩ h).1
  have hmem := (sortBy_perm _).mem_iff.1 hx
  have hsize : e.size = declared.size := by simpa [Dict.keys, Dict.size] using congrArg List.length he.2
  obtain ⟨hdeclared', hkeys⟩ := declared_attachLayout he.1 (he.2 ▸ List.mem_map_of_mem hmem)
    (hsize ▸ (hdeclared x hmem).2) h
  exact ⟨hdeclared', hkeys.trans he.2⟩

end Scene

/-! ## The whole source -/

/-- What any source gives. -/
structure Recovered.WellFormed (r : Recovered) : Prop where
  stages : r.stages.Discovered
  exports : r.exports.Declared

namespace Scene

theorem read_eq (strict : Bool) (m : Merged) : (read strict m).2 = (do
    let (v, declaration, declared) ← (ofMerged m).declarations
    let exports ← declared.ordered.foldlM ((ofMerged m).attachLayout strict v declaration) declared
    return ⟨v.stages, exports, m.text, m.map⟩) := by
  unfold read
  dsimp only
  cases (ofMerged m).declarations with
  | error e => rfl
  | ok found =>
    obtain ⟨v, declaration, declared⟩ := found
    dsimp only
    have hattached := attachLayouts_eq (ofMerged m) strict v declaration declared.ordered declared
    cases hresult : (ofMerged m).attachLayouts strict v declaration declared.ordered declared with
    | mk notes attached =>
      rw [hresult] at hattached
      show _ = declared.ordered.foldlM ((ofMerged m).attachLayout strict v declaration) declared >>= _
      rw [← hattached]
      cases attached <;> rfl

theorem declarations_ok {sc : Scene} {v : Survey} {declaration : Option StructBlock} {declared : Exports}
    (h : sc.declarations = .ok (v, declaration, declared)) :
    ∃ stages, sc.stages = .ok stages ∧ sc.survey stages = .ok v ∧ sc.theDeclaration v = .ok declaration ∧
      sc.declaredExports declaration = .ok declared := by
  obtain ⟨stages, hstages, h⟩ := bind_eq_ok_iff.1 h
  obtain ⟨_, hsurvey, h⟩ := bind_eq_ok_iff.1 h
  obtain ⟨_, hdeclaration, h⟩ := bind_eq_ok_iff.1 h
  obtain ⟨_, hdeclared, h⟩ := bind_eq_ok_iff.1 h
  cases h
  exact ⟨stages, hstages, hsurvey, hdeclaration, hdeclared⟩

theorem read_ok {strict : Bool} {m : Merged} {r : Recovered} (h : (read strict m).2 = .ok r) :
    ∃ stages v declaration declared exports, (ofMerged m).stages = .ok stages ∧ (ofMerged m).survey stages = .ok v ∧
      (ofMerged m).declaredExports declaration = .ok declared ∧
      declared.ordered.foldlM ((ofMerged m).attachLayout strict v declaration) declared = .ok exports ∧
      r = ⟨v.stages, exports, m.text, m.map⟩ := by
  rw [read_eq] at h
  obtain ⟨⟨v, declaration, declared⟩, hdeclarations, h⟩ := bind_eq_ok_iff.1 h
  obtain ⟨exports, hattached, h⟩ := bind_eq_ok_iff.1 h
  cases h
  obtain ⟨stages, hstages, hsurvey, -, hdeclared⟩ := declarations_ok hdeclarations
  exact ⟨stages, v, declaration, declared, exports, hstages, hsurvey, hdeclared, hattached, rfl⟩

theorem read_wellFormed {strict : Bool} {m : Merged} {r : Recovered} (h : (read strict m).2 = .ok r) :
    r.WellFormed := by
  obtain ⟨stages, v, declaration, declared, exports, hstages, hsurvey, hdeclared, hattached, rfl⟩ := read_ok h
  exact ⟨discovered_survey (discovered_stages hstages) hsurvey,
    declared_attachLayouts (declared_declaredExports hdeclared) hattached⟩

end Scene

end ShaderForge
