import ShaderForge.Proofs.Json.Legible
import ShaderForge.Proofs.Shader.MetadataWriting

/-!
# ShaderForge.Proofs.Shader.MetadataReading

Metadata that was read can be written. Whatever a text says, its strings are valid, its integers fit in a word,
and its kinds and types have names; so what was read lies in the domain of the writer.

* `Json.readRecord_ends`, `Json.readList_ends` — what every member and every item keeps.
* `Metadata.Readable`        — what can be stored and written.
* `Metadata.readable_of_ofText` — metadata that was read is of that form.
-/

namespace ShaderForge

/-! ## Scalars -/

theorem DataType.known_of_read {tag : Bytes} {t : DataType} (h : DataType.read tag = .ok t) : t.Known := by
  unfold DataType.read at h
  split at h
  · rename_i htag
    cases h
    exact known_of_ofInfo? htag
  · cases h

theorem StageKind.isKnown_of_read {name : Bytes} {k : StageKind} (h : StageKind.read name = .ok k) :
    k.isKnown = true := by
  unfold StageKind.read at h
  split at h
  · rename_i hname
    cases h
    have hfound := List.find?_some hname
    rw [isKnown, of_decide_eq_true hfound]
    rfl
  · cases h

namespace Json

theorem fitsWord_of_literal {literal : Bytes} {i : Int} (h : intOfLiteral? literal = some i) : FitsWord i := by
  obtain ⟨-, hrange⟩ := Option.filter_eq_some_iff.1 h
  simpa [FitsWord] using hrange

theorem readInt_ends {old : Int} (hold : FitsWord old) (v : Json) :
    Ends FitsWord (fun _ => True) (readInt old v) := by
  unfold readInt
  split
  · exact hold
  · split
    · rename_i hi
      exact fitsWord_of_literal hi
    · trivial
  · trivial

theorem readOptionalInt_ends (v : Json) :
    Ends (fun n : Option Int => ∀ i ∈ n, FitsWord i) (fun _ => True) (readOptionalInt v) := by
  unfold readOptionalInt
  split
  · simp [Ends]
  · have hzero : FitsWord 0 := by simp [FitsWord]
    have hread := readInt_ends hzero v
    cases hv : readInt 0 v with
    | error e => trivial
    | ok i =>
      intro j hj
      cases hj
      exact hread.ok hv

theorem readString_ends {old : Bytes} (hold : Utf8.isValid old = true) {v : Json} (hv : Legible v) :
    Ends (fun s => Utf8.isValid s = true) (fun _ => True) (readString old v) := by
  cases hv with
  | null => exact hold
  | string h => exact h
  | _ => trivial

theorem readDataType_ends {old : DataType} (hold : old.Known) (v : Json) :
    Ends DataType.Known (fun _ => True) (readDataType old v) := by
  unfold readDataType
  split
  · exact hold
  · split
    · rename_i ht
      exact DataType.known_of_read ht
    · trivial
  · trivial

/-! ## Records and lists -/

section Containers

variable {α : Type} {I : α → Prop}

theorem readRecord_ends {field : α → Bytes → Json → Read α}
    (hfield : ∀ a name v, Legible v → I a → Ends I (fun _ => True) (field a name v)) {old : α} (hold : I old)
    {v : Json} (hv : Legible v) : Ends I (fun _ => True) (readRecord field old v) := by
  cases hv with
  | null => exact hold
  | object names h => exact Ends.foldlM (fun a m hm ha => hfield a m.1 m.2 (h m hm) ha) hold
  | _ => trivial

variable [Inhabited α] {item : α → Json → Read α}

theorem readItems_ends (hdefault : I default)
    (hitem : ∀ a v, Legible v → I a → Ends I (fun _ => True) (item a v)) {slots : List α} {vs : List Json}
    (hslots : ∀ a ∈ slots, I a) (hvs : ∀ v ∈ vs, Legible v) :
    Ends (fun l => ∀ a ∈ l, I a) (fun _ => True) (readItems item slots vs) := by
  induction vs generalizing slots with
  | nil => simp [readItems, Ends]
  | cons v vs ih =>
    have hhead : I (slots.headD default) := by
      cases slots with
      | nil => exact hdefault
      | cons a slots => exact hslots a List.mem_cons_self
    rw [readItems]
    refine (hitem _ v (hvs v List.mem_cons_self) hhead).bind fun a ha => ?_
    refine (ih (fun a ha => hslots a (List.mem_of_mem_tail ha))
      (fun v hv => hvs v (List.mem_cons_of_mem _ hv))).bind fun l hl => ?_
    exact List.forall_mem_cons.2 ⟨ha, hl⟩

/-- All items of the list, and all that an earlier list left in their places. -/
structure Slots.All (I : α → Prop) (s : Slots α) : Prop where
  current : ∀ a ∈ s.current.getD [], I a
  slots : ∀ a ∈ s.slots, I a

/-- What every item keeps, a list keeps, with what it leaves to the next one. -/
theorem readList_ends (hdefault : I default)
    (hitem : ∀ a v, Legible v → I a → Ends I (fun _ => True) (item a v)) {old : Slots α} (hold : old.All I)
    {v : Json} (hv : Legible v) : Ends (Slots.All I) (fun _ => True) (readList item old v) := by
  unfold readList
  split
  · exact ⟨by simp, by simp⟩
  · exact ⟨by simp, by simp⟩
  · cases hv with
    | array hitems =>
      refine (readItems_ends hdefault hitem hold.slots hitems).bind fun read hread => ?_
      refine ⟨hread, fun a ha => ?_⟩
      rcases List.mem_append.1 ha with ha | ha
      · exact hread a ha
      · exact hold.slots a (List.mem_of_mem_drop ha)
  · trivial

end Containers

end Json

/-! ## Items -/

structure VertexInput.Readable (i : VertexInput) : Prop where
  type : i.type.Known
  semantic : Utf8.isValid i.semantic = true

theorem VertexInput.readable_default : (default : VertexInput).Readable := ⟨rfl, rfl⟩

theorem VertexInput.readField_ends (i : VertexInput) (name : Bytes) (v : Json) (hv : v.Legible) (hi : i.Readable) :
    Ends Readable (fun _ => True) (i.readField name v) := by
  unfold readField
  split
  · exact (Json.readDataType_ends hi.type v).bind fun t ht => ⟨ht, hi.semantic⟩
  split
  · exact (Json.readString_ends hi.semantic hv).bind fun s hs => ⟨hi.type, hs⟩
  · exact hi

structure ExportElement.Readable (e : ExportElement) : Prop where
  name : Utf8.isValid e.name = true
  type : e.type.Known
  offset : FitsWord e.offset

theorem ExportElement.readable_default : (default : ExportElement).Readable :=
  ⟨rfl, rfl, show FitsWord 0 by simp [FitsWord]⟩

theorem ExportElement.readField_ends (e : ExportElement) (name : Bytes) (v : Json) (hv : v.Legible)
    (he : e.Readable) : Ends Readable (fun _ => True) (e.readField name v) := by
  unfold readField
  split
  · exact (Json.readString_ends he.name hv).bind fun s hs => ⟨hs, he.type, he.offset⟩
  split
  · exact (Json.readDataType_ends he.type v).bind fun t ht => ⟨he.name, ht, he.offset⟩
  split
  · exact (Json.readInt_ends he.offset v).bind fun i hi => ⟨he.name, he.type, hi⟩
  · exact he

/-! ## Stages and exports -/

namespace Stage

structure Readable (st : Stage) : Prop where
  storable : st.Storable
  named : st.Named

/-- A stage half read, with all that its list of inputs may hold. -/
structure Draft.Readable (d : Draft) : Prop where
  entryPoint : Utf8.isValid d.stage.entryPoint = true
  buffer : FitsWord d.stage.buffer
  inputs : d.inputs.All VertexInput.Readable
  size : ∀ n ∈ d.stage.inputsSizePerVertex, FitsWord n

theorem readField_ends (d : Draft) (name : Bytes) (v : Json) (hv : v.Legible) (hd : d.Readable) :
    Ends Draft.Readable (fun _ => True) (readField d name v) := by
  unfold readField
  split
  · exact (Json.readString_ends hd.entryPoint hv).bind fun s hs => ⟨hs, hd.buffer, hd.inputs, hd.size⟩
  split
  · exact (Json.readInt_ends hd.buffer v).bind fun i hi => ⟨hd.entryPoint, hi, hd.inputs, hd.size⟩
  split
  · refine (Json.readList_ends VertexInput.readable_default (fun i v hv hi => ?_) hd.inputs hv).bind fun s hs =>
      ⟨hd.entryPoint, hd.buffer, hs, hd.size⟩
    exact Json.readRecord_ends VertexInput.readField_ends hi hv
  split
  · exact (Json.readOptionalInt_ends v).bind fun n hn => ⟨hd.entryPoint, hd.buffer, hd.inputs, hn⟩
  · exact hd

theorem Draft.Readable.done {d : Draft} (hd : d.Readable) : d.done.Readable where
  storable := ⟨hd.entryPoint, hd.buffer, fun i hi => (hd.inputs.current i hi).semantic, hd.size⟩
  named i hi := (hd.inputs.current i hi).type

theorem ofJson_ends {v : Json} (hv : v.Legible) :
    Ends (fun st : Option Stage => ∀ s ∈ st, s.Readable) (fun _ => True) (ofJson v) := by
  unfold ofJson
  split
  · simp [Ends]
  · refine (Json.readRecord_ends (I := Draft.Readable) readField_ends ?_ hv).bind fun d hd s hs => ?_
    · exact ⟨by decide, by simp [FitsWord], ⟨by simp, by simp⟩, by simp⟩
    · cases hs
      exact hd.done

end Stage

namespace Export

structure Readable (x : Export) : Prop where
  storable : x.Storable
  named : x.Named

/-- An export half read, with all that its list of elements may hold. -/
structure Draft.Readable (d : Draft) : Prop where
  binding : ∀ n ∈ d.exported.binding, FitsWord n
  type : Utf8.isValid d.exported.type = true
  elements : d.elements.All ExportElement.Readable
  size : ∀ n ∈ d.exported.sizeInBytes, FitsWord n

theorem readField_ends (d : Draft) (name : Bytes) (v : Json) (hv : v.Legible) (hd : d.Readable) :
    Ends Draft.Readable (fun _ => True) (readField d name v) := by
  unfold readField
  split
  · exact (Json.readOptionalInt_ends v).bind fun n hn => ⟨hn, hd.type, hd.elements, hd.size⟩
  split
  · exact (Json.readString_ends hd.type hv).bind fun s hs => ⟨hd.binding, hs, hd.elements, hd.size⟩
  split
  · refine (Json.readList_ends ExportElement.readable_default (fun e v hv he => ?_) hd.elements hv).bind fun s hs =>
      ⟨hd.binding, hd.type, hs, hd.size⟩
    exact Json.readRecord_ends ExportElement.readField_ends he hv
  split
  · exact (Json.readOptionalInt_ends v).bind fun n hn => ⟨hd.binding, hd.type, hd.elements, hn⟩
  · exact hd

theorem Draft.Readable.done {d : Draft} (hd : d.Readable) : d.done.Readable where
  storable := ⟨hd.binding, hd.type, fun e he => ⟨(hd.elements.current e he).name, (hd.elements.current e he).offset⟩,
    hd.size⟩
  named e he := (hd.elements.current e he).type

theorem ofJson_ends {v : Json} (hv : v.Legible) :
    Ends (fun x : Option Export => ∀ e ∈ x, e.Readable) (fun _ => True) (ofJson v) := by
  unfold ofJson
  split
  · simp [Ends]
  · refine (Json.readRecord_ends (I := Draft.Readable) readField_ends ?_ hv).bind fun d hd s hs => ?_
    · exact ⟨by simp, by decide, ⟨by simp, by simp⟩, by simp⟩
    · cases hs
      exact hd.done

end Export

/-! ## Tables -/

/-- What holds of all entries and of a new one holds of all entries afterwards. -/
theorem Dict.forall_mem_insert {κ α : Type} [Key κ] [DecidableEq κ] {P : κ × α → Prop} {d : Dict κ α} {k : κ}
    {v : α} (hd : ∀ e ∈ d.toList, P e) (hv : P (k, v)) : ∀ e ∈ (d.insert k v).toList, P e := by
  intro e he
  rcases mem_insertEntry he with rfl | he
  · exact hv
  · exact hd e he

namespace Stages

def Readable (s : Stages) : Prop := ∀ e ∈ s.toList, e.1.isKnown = true ∧ e.2.Readable

theorem readMembers_ends {members : List (Bytes × Json)} (h : ∀ m ∈ members, m.2.Legible) :
    Ends (fun d : Dict StageKind (Option Stage) =>
      ∀ e ∈ d.toList, e.1.isKnown = true ∧ ∀ st ∈ e.2, st.Readable) (fun _ => True) (readMembers members) := by
  refine Ends.foldlM (fun d m hm hd => ?_) (by simp [Dict.empty])
  obtain ⟨name, v⟩ := m
  dsimp only
  split
  · rename_i hname
    exact (Stage.ofJson_ends (h _ hm)).bind fun st hst =>
      Dict.forall_mem_insert hd ⟨StageKind.isKnown_of_read hname, hst⟩
  · trivial

theorem requireAll_ends {d : Dict StageKind (Option Stage)}
    (h : ∀ e ∈ d.toList, e.1.isKnown = true ∧ ∀ st ∈ e.2, st.Readable) :
    Ends Readable (fun _ => True) (requireAll d) := by
  refine Ends.foldlM (fun s e he hs => ?_) (by simp [Readable, Dict.empty])
  obtain ⟨kind, st⟩ := e
  obtain ⟨hkind, hst⟩ := h _ he
  cases st with
  | none => trivial
  | some st => exact Dict.forall_mem_insert hs ⟨hkind, hst st rfl⟩

theorem ofJson_ends {v : Json} (hv : v.Legible) :
    Ends (fun s : Option Stages => ∀ t ∈ s, t.Readable) (fun _ => True) (ofJson v) := by
  cases hv with
  | null => simp [ofJson, Ends]
  | object names h =>
    refine (readMembers_ends h).bind fun d hd => (requireAll_ends hd).bind fun s hs t ht => ?_
    cases ht
    exact hs
  | _ => trivial

end Stages

namespace Exports

def Readable (e : Exports) : Prop := ∀ x ∈ e.toList, Utf8.isValid x.1 = true ∧ ∀ d ∈ x.2, d.Readable

theorem ofJson_ends {old : Option Exports} (hold : ∀ e ∈ old, e.Readable) {v : Json} (hv : v.Legible) :
    Ends (fun e : Option Exports => ∀ t ∈ e, t.Readable) (fun _ => True) (ofJson old v) := by
  cases hv with
  | null => simp [ofJson, Ends]
  | object names h =>
    have hstart : (old.getD Dict.empty).Readable := by
      cases old with
      | none => simp [Readable, Dict.empty]
      | some e => exact hold e rfl
    refine (Ends.foldlM (fun (d : Exports) m hm (hd : d.Readable) => ?_) hstart).bind fun e he t ht => ?_
    · exact (Export.ofJson_ends (h m hm)).bind fun x hx => Dict.forall_mem_insert hd ⟨names m hm, hx⟩
    · cases ht
      exact he
  | _ => trivial

end Exports

/-! ## Metadata -/

namespace Metadata

structure Readable (md : Metadata) : Prop where
  name : Utf8.isValid md.shaderName = true
  stages : ∀ s ∈ md.stages, s.Readable
  exports : ∀ e ∈ md.exports, e.Readable

theorem readField_ends (md : Metadata) (name : Bytes) (v : Json) (hv : v.Legible) (h : md.Readable) :
    Ends Readable (fun _ => True) (md.readField name v) := by
  unfold readField
  split
  · exact (Json.readString_ends h.name hv).bind fun s hs => ⟨hs, h.stages, h.exports⟩
  split
  · exact (Stages.ofJson_ends hv).bind fun s hs => ⟨h.name, hs, h.exports⟩
  split
  · exact (Exports.ofJson_ends h.exports hv).bind fun e he => ⟨h.name, h.stages, he⟩
  · exact h

/-- Metadata that was read can be stored and written, whatever the text was. -/
theorem readable_of_ofText {s : Bytes} {md : Metadata} (h : ofText s = .ok md) : md.Readable := by
  unfold ofText at h
  split at h
  · rename_i v hv
    have hstart : ({} : Metadata).Readable := ⟨by decide, by simp, by simp⟩
    exact (Json.readRecord_ends readField_ends hstart (Json.legible_of_read? hv)).ok h
  · cases h

theorem Readable.stageTable {md : Metadata} (h : md.Readable) : md.stageTable.Readable := by
  unfold Metadata.stageTable
  cases hs : md.stages with
  | none => simp [Stages.Readable, Dict.empty]
  | some s => exact h.stages s hs

theorem Readable.exportTable {md : Metadata} (h : md.Readable) : md.exportTable.Readable := by
  unfold Metadata.exportTable
  cases he : md.exports with
  | none => simp [Exports.Readable, Dict.empty]
  | some e => exact h.exports e he

theorem Readable.storable {md : Metadata} (h : md.Readable) : md.Storable where
  name := h.name
  stages e he := (h.stageTable e he).2.storable
  exports e he := ⟨(h.exportTable e he).1, fun x hx => ((h.exportTable e he).2 x hx).storable⟩

theorem Readable.named {md : Metadata} (h : md.Readable) : md.Named where
  stages e he := ⟨(h.stageTable e he).1, (h.stageTable e he).2.named⟩
  exports e he x hx := ((h.exportTable e he).2 x hx).named

end Metadata

end ShaderForge
