import ShaderForge.Proofs.Json.RoundTrip
import ShaderForge.Proofs.Tables
import ShaderForge.Shader.MetadataJson

/-!
# ShaderForge.Proofs.Shader.MetadataRoundTrip

Metadata is read back from the text it was written to. An empty list is not written, so it comes back as an
absent one; nothing else changes.

* `Metadata.Storable` — strings are valid UTF-8 and integers fit in 64 bits.
* `Metadata.normal`   — empty lists taken away.
* `Metadata.read_toJson` — the value written can be rendered, and is read as the metadata.
* `Metadata.ofText_text` — the round trip.
-/

namespace ShaderForge

variable {name : Bytes} {v : Json} {vs : List Json}

/-! ## Which metadata can be stored -/

def FitsWord (i : Int) : Prop := -0x8000000000000000 ≤ i ∧ i < 0x8000000000000000

structure Stage.Storable (s : Stage) : Prop where
  entryPoint : Utf8.isValid s.entryPoint = true
  buffer : FitsWord s.buffer
  inputs : ∀ i ∈ s.inputs.getD [], Utf8.isValid i.semantic = true
  size : ∀ n ∈ s.inputsSizePerVertex, FitsWord n

structure Export.Storable (e : Export) : Prop where
  binding : ∀ n ∈ e.binding, FitsWord n
  type : Utf8.isValid e.type = true
  elements : ∀ x ∈ e.elements.getD [], Utf8.isValid x.name = true ∧ FitsWord x.offset
  size : ∀ n ∈ e.sizeInBytes, FitsWord n

/-- All strings of the metadata are valid UTF-8 and all its integers fit in 64 bits. -/
structure Metadata.Storable (md : Metadata) : Prop where
  name : Utf8.isValid md.shaderName = true
  stages : ∀ e ∈ md.stageTable.toList, e.2.Storable
  exports : ∀ e ∈ md.exportTable.toList, Utf8.isValid e.1 = true ∧ ∀ x ∈ e.2, x.Storable

/-! ## What is read back -/

/-- A list, or nothing for an empty one. -/
def listed {α : Type} : Option (List α) → Option (List α)
  | some (a :: l) => some (a :: l)
  | _ => none

def Stage.normal (s : Stage) : Stage := { s with inputs := listed s.inputs }

def Export.normal (e : Export) : Export := { e with elements := listed e.elements }

def Stages.normal (s : Stages) : Stages := s.mapValues fun _ st => st.normal

def Exports.normal (e : Exports) : Exports := e.mapValues fun _ x => x.map Export.normal

/-- The metadata with empty lists taken away. -/
def Metadata.normal (md : Metadata) : Metadata :=
  { md with stages := md.stages.map Stages.normal, exports := md.exports.map Exports.normal }

/-! ## Names of kinds and types -/

theorem StageKind.read_of_write {k : StageKind} (h : k.write = .ok name) :
    StageKind.read name = .ok k ∧ Utf8.isValid name = true := by
  unfold StageKind.write StageKind.name? at h
  by_cases hv : k = vertex
  · subst hv
    cases h
    exact ⟨by decide, by decide⟩
  · by_cases hp : k = pixel
    · subst hp
      cases h
      exact ⟨by decide, by decide⟩
    · simp [hv, hp] at h

theorem DataType.read_table : ∀ i : Fin table.length,
    DataType.ofTag? (table.get i).tag = some ⟨UInt8.ofNat i⟩ ∧
      Utf8.isValid (table.get i).tag = true := by
  decide

theorem DataType.read_of_write {t : DataType} {tag : Bytes} (h : t.write = .ok tag) :
    DataType.read tag = .ok t ∧ Utf8.isValid tag = true := by
  unfold DataType.write at h
  split at h
  · rename_i info hinfo
    cases h
    obtain ⟨hlt, hget⟩ := List.getElem?_eq_some_iff.1 hinfo
    obtain ⟨htag, hvalid⟩ := DataType.read_table ⟨t.code.toNat, hlt⟩
    rw [List.get_eq_getElem, hget] at htag hvalid
    refine ⟨?_, hvalid⟩
    rw [DataType.read, htag]
    simp
  · cases h

theorem DataType.readDataType_toJson {t : DataType} (h : t.toJson = .ok v) (old : DataType) :
    Json.readDataType old v = .ok t ∧ ∀ d, Json.Writable d v := by
  unfold DataType.toJson at h
  split at h
  · rename_i tag htag
    cases h
    obtain ⟨hread, hvalid⟩ := DataType.read_of_write htag
    exact ⟨by rw [Json.readDataType, hread], fun d => .string d hvalid⟩
  · cases h

/-! ## Scalars and lists -/

namespace Json

theorem readInt_ofInt {i : Int} (h : FitsWord i) (old : Int) : readInt old (ofInt i) = .ok i := by
  rw [ofInt, readInt, intOfLiteral?_ofInt h.1 h.2]

theorem readOptionalInt_ofInt {i : Int} (h : FitsWord i) :
    readOptionalInt (ofInt i) = .ok (some i) := by
  have hread := readInt_ofInt h 0
  rw [ofInt] at hread ⊢
  rw [readOptionalInt, hread]
  · rfl
  · simp

theorem readItems_of_forall₂ {α : Type} [Inhabited α] {item : α → Json → Read α} {as : List α}
    (h : List.Forall₂ (fun v a => item default v = .ok a) vs as) :
    readItems item [] vs = .ok as := by
  induction h with
  | nil => rfl
  | cons hva _ ih =>
    rw [readItems, List.headD_nil, hva, List.tail_nil, ih]
    rfl

theorem readList_array {α : Type} [Inhabited α] {item : α → Json → Read α} {as : List α}
    (h : List.Forall₂ (fun v a => item default v = .ok a) vs as) :
    ∃ slots, readList item {} (.array vs) = .ok ⟨some as, slots⟩ := by
  cases h with
  | nil => exact ⟨_, rfl⟩
  | @cons v a vs as hva hrest =>
    refine ⟨a :: as ++ [].drop (a :: as).length, ?_⟩
    rw [readList, readItems_of_forall₂ (.cons hva hrest)]
    · rfl
    · simp

theorem foldlM_optionalInt {α : Type} {field : α → Bytes → Json → Read α} {a b : α} (n : Option Int)
    (habsent : n = none → a = b) (hread : ∀ i, n = some i → field a name (ofInt i) = .ok b) :
    (optionalInt name n).foldlM (fun a (m : Bytes × Json) => field a m.1 m.2) a = .ok b := by
  cases n with
  | none => rw [habsent rfl]; rfl
  | some i => rw [optionalInt, foldlM_of_ok (hread i rfl)]; rfl

/-- A list, whether written or left out: what is read is the list, or nothing if it is empty. -/
theorem foldlM_optionalList {α β : Type} [Inhabited α] {item : α → Json → Read α} (field : β → Bytes → Json → Read β)
    (name : Bytes) {b : β} (put : Slots α → β) (hput : put {} = b)
    (hfield : ∀ v slots, readList item {} v = .ok slots → field b name v = .ok (put slots)) {l : Option (List α)}
    (h : List.Forall₂ (fun v a => item default v = .ok a) vs (l.getD [])) :
    ∃ slots, (optionalList name vs).foldlM (fun b (m : Bytes × Json) => field b m.1 m.2) b =
      .ok (put ⟨listed l, slots⟩) := by
  match l, vs, h with
  | none, _, .nil => exact ⟨[], by rw [← hput]; rfl⟩
  | some [], _, .nil => exact ⟨[], by rw [← hput]; rfl⟩
  | some (a :: l), v :: vs, h =>
    obtain ⟨slots, hslots⟩ := readList_array h
    refine ⟨slots, ?_⟩
    rw [optionalList, foldlM_of_ok (hfield _ _ hslots)]
    · rfl
    · simp

theorem writable_optionalInt {n : Option Int} {d : Nat} (hname : Utf8.isValid name = true) :
    ∀ m ∈ optionalInt name n, Utf8.isValid m.1 = true ∧ Writable d m.2 := by
  cases n with
  | none => simp [optionalInt]
  | some i =>
    intro m hm
    obtain rfl := List.mem_singleton.1 hm
    exact ⟨hname, .ofInt d i⟩

theorem writable_optionalList {d : Nat} (hname : Utf8.isValid name = true) (h : ∀ v ∈ vs, Writable d v) :
    ∀ m ∈ optionalList name vs, Utf8.isValid m.1 = true ∧ Writable (d + 1) m.2 := by
  cases vs with
  | nil => simp [optionalList]
  | cons v vs =>
    intro m hm
    obtain rfl := List.mem_singleton.1 hm
    exact ⟨hname, .array h⟩

end Json

/-! ## Records -/

namespace VertexInput

theorem read_toJson {i : VertexInput} (hs : Utf8.isValid i.semantic = true) (h : i.toJson = .ok v) :
    Json.readRecord readField default v = .ok i ∧ ∀ d, Json.Writable (d + 1) v := by
  obtain ⟨type, htype, h⟩ := bind_eq_ok_iff.1 h
  cases h
  have hread := DataType.readDataType_toJson htype
  constructor
  · have h1 : readField default (utf8 "type") type = .ok ⟨i.type, []⟩ := by
      rw [readField, if_pos (by decide), (hread _).1]
      rfl
    have h2 : readField ⟨i.type, []⟩ (utf8 "semantic") (.string i.semantic) = .ok i := by
      rw [readField, if_neg (by decide), if_pos (by decide)]
      rfl
    rw [Json.readRecord, foldlM_of_ok h1, foldlM_of_ok h2]
    rfl
  · intro d
    refine .object ?_ ?_
    · simp only [List.mem_cons, List.not_mem_nil, or_false, forall_eq_or_imp, forall_eq]
      exact ⟨by decide, by decide⟩
    · simp only [List.mem_cons, List.not_mem_nil, or_false, forall_eq_or_imp, forall_eq]
      exact ⟨(hread default).2 d, .string d hs⟩

end VertexInput

namespace ExportElement

theorem read_toJson {e : ExportElement} (hs : Utf8.isValid e.name = true) (ho : FitsWord e.offset)
    (h : e.toJson = .ok v) :
    Json.readRecord readField default v = .ok e ∧ ∀ d, Json.Writable (d + 1) v := by
  obtain ⟨type, htype, h⟩ := bind_eq_ok_iff.1 h
  cases h
  have hread := DataType.readDataType_toJson htype
  constructor
  · have h1 : readField default (utf8 "name") (.string e.name) = .ok ⟨e.name, default, 0⟩ := by
      rw [readField, if_pos (by decide)]
      rfl
    have h2 : readField ⟨e.name, default, 0⟩ (utf8 "type") type = .ok ⟨e.name, e.type, 0⟩ := by
      rw [readField, if_neg (by decide), if_pos (by decide), (hread _).1]
      rfl
    have h3 : readField ⟨e.name, e.type, 0⟩ (utf8 "offset") (Json.ofInt e.offset) = .ok e := by
      rw [readField, if_neg (by decide), if_neg (by decide), if_pos (by decide),
        Json.readInt_ofInt ho]
      rfl
    rw [Json.readRecord, foldlM_of_ok h1, foldlM_of_ok h2, foldlM_of_ok h3]
    rfl
  · intro d
    refine .object ?_ ?_
    · simp only [List.mem_cons, List.not_mem_nil, or_false, forall_eq_or_imp, forall_eq]
      exact ⟨by decide, by decide, by decide⟩
    · simp only [List.mem_cons, List.not_mem_nil, or_false, forall_eq_or_imp, forall_eq]
      exact ⟨.string d hs, (hread default).2 d, .ofInt d _⟩

end ExportElement

theorem read_items {α : Type} [Inhabited α] {item : α → Json → Json.Read α}
    {toJson : α → Except MetadataWriteError Json} {l : List α}
    (hread : ∀ a ∈ l, ∀ v, toJson a = .ok v → item default v = .ok a) (h : l.mapM toJson = .ok vs) :
    List.Forall₂ (fun v a => item default v = .ok a) vs l := by
  have hall := forall₂_of_mapM h
  clear h
  induction hall with
  | nil => exact .nil
  | cons hab _ ih =>
    exact .cons (hread _ (by simp) _ hab) (ih fun a ha => hread a (List.mem_cons_of_mem _ ha))

theorem writable_items {α : Type} {toJson : α → Except MetadataWriteError Json} {l : List α} {d : Nat}
    (hwrite : ∀ a ∈ l, ∀ v, toJson a = .ok v → Json.Writable d v) (h : l.mapM toJson = .ok vs) :
    ∀ v ∈ vs, Json.Writable d v := by
  intro v hv
  obtain ⟨a, ha, hav⟩ := (exists_of_mapM h).1 v hv
  exact hwrite a ha v hav

namespace Stage

theorem read_toJson {s : Stage} (hs : s.Storable) (h : s.toJson = .ok v) :
    ofJson v = .ok (some s.normal) := by
  obtain ⟨inputs, hinputs, h⟩ := bind_eq_ok_iff.1 h
  cases h
  -- the members are read one after another, each into what the ones before it gave
  have h1 : readField {} (utf8 "entryPoint") (.string s.entryPoint) =
      .ok { stage := { entryPoint := s.entryPoint } } := by
    rw [readField, if_pos (by decide)]
    rfl
  have h2 : readField { stage := { entryPoint := s.entryPoint } } (utf8 "buffer")
      (Json.ofInt s.buffer) =
      .ok { stage := { entryPoint := s.entryPoint, buffer := s.buffer } } := by
    rw [readField, if_neg (by decide), if_pos (by decide), Json.readInt_ofInt hs.buffer]
    rfl
  have hitems : List.Forall₂ (fun v a => Json.readRecord VertexInput.readField default v = .ok a)
      inputs (s.inputs.getD []) :=
    read_items (fun i hi v hv => (VertexInput.read_toJson (hs.inputs i hi) hv).1) hinputs
  obtain ⟨slots, h3⟩ := Json.foldlM_optionalList readField "inputs"
    (fun slots => ⟨{ entryPoint := s.entryPoint, buffer := s.buffer }, slots⟩) rfl
    (fun v slots hv => by
      rw [readField, if_neg (by decide), if_neg (by decide), if_pos (by decide), hv]
      rfl) hitems
  have h4 : (Json.optionalInt "inputsSizePerVertex" s.inputsSizePerVertex).foldlM
      (fun d (m : Bytes × Json) => readField d m.1 m.2)
      ⟨{ entryPoint := s.entryPoint, buffer := s.buffer }, ⟨listed s.inputs, slots⟩⟩ =
      .ok ⟨{ s with inputs := none }, ⟨listed s.inputs, slots⟩⟩ := by
    refine Json.foldlM_optionalInt _ ?_ ?_
    · intro hnone
      rw [hnone]
    · intro n hn
      rw [readField, if_neg (by decide), if_neg (by decide), if_neg (by decide),
        if_pos (by decide), Json.readOptionalInt_ofInt (hs.size n hn), hn]
      rfl
  rw [ofJson, Json.readRecord, List.append_assoc, List.cons_append, List.cons_append,
    List.nil_append, foldlM_of_ok h1, foldlM_of_ok h2, foldlM_append_of_ok h3, h4]
  · rfl
  · simp

theorem writable_toJson {s : Stage} (hs : s.Storable) (h : s.toJson = .ok v) (d : Nat) :
    Json.Writable (d + 3) v := by
  obtain ⟨inputs, hinputs, h⟩ := bind_eq_ok_iff.1 h
  cases h
  have hnames : ∀ m ∈ [(utf8 "entryPoint", Json.string s.entryPoint),
      (utf8 "buffer", Json.ofInt s.buffer)] ++ Json.optionalList "inputs" inputs ++
      Json.optionalInt "inputsSizePerVertex" s.inputsSizePerVertex,
      Utf8.isValid m.1 = true ∧ Json.Writable (d + 2) m.2 := by
    intro m hm
    simp only [List.mem_append, List.mem_cons, List.not_mem_nil, or_false] at hm
    rcases hm with ((rfl | rfl) | hm) | hm
    · exact ⟨show Utf8.isValid (utf8 "entryPoint") = true by decide, .string _ hs.entryPoint⟩
    · exact ⟨show Utf8.isValid (utf8 "buffer") = true by decide, .ofInt _ _⟩
    · exact Json.writable_optionalList (by decide)
        (writable_items (fun i hi v hv => (VertexInput.read_toJson (hs.inputs i hi) hv).2 d) hinputs)
        m hm
    · exact Json.writable_optionalInt (by decide) m hm
  exact .object (fun m hm => (hnames m hm).1) (fun m hm => (hnames m hm).2)

end Stage

namespace Export

theorem read_toJson {e : Export} (he : e.Storable) (h : e.toJson = .ok v) :
    ofJson v = .ok (some e.normal) := by
  obtain ⟨elements, helements, h⟩ := bind_eq_ok_iff.1 h
  cases h
  have h1 : (Json.optionalInt "binding" e.binding).foldlM
      (fun d (m : Bytes × Json) => readField d m.1 m.2) {} =
      .ok { exported := { binding := e.binding } } := by
    refine Json.foldlM_optionalInt _ ?_ ?_
    · intro hnone
      rw [hnone]
    · intro n hn
      rw [readField, if_pos (by decide), Json.readOptionalInt_ofInt (he.binding n hn), hn]
      rfl
  have h2 : readField { exported := { binding := e.binding } } (utf8 "type") (.string e.type) =
      .ok { exported := { binding := e.binding, type := e.type } } := by
    rw [readField, if_neg (by decide), if_pos (by decide)]
    rfl
  have hitems : List.Forall₂
      (fun v a => Json.readRecord ExportElement.readField default v = .ok a)
      elements (e.elements.getD []) :=
    read_items (fun x hx v hv =>
      (ExportElement.read_toJson (he.elements x hx).1 (he.elements x hx).2 hv).1) helements
  obtain ⟨slots, h3⟩ := Json.foldlM_optionalList readField "elements"
    (fun slots => ⟨{ binding := e.binding, type := e.type }, slots⟩) rfl
    (fun v slots hv => by
      rw [readField, if_neg (by decide), if_neg (by decide), if_pos (by decide), hv]
      rfl) hitems
  have h4 : (Json.optionalInt "sizeInBytes" e.sizeInBytes).foldlM
      (fun d (m : Bytes × Json) => readField d m.1 m.2)
      ⟨{ binding := e.binding, type := e.type }, ⟨listed e.elements, slots⟩⟩ =
      .ok ⟨{ e with elements := none }, ⟨listed e.elements, slots⟩⟩ := by
    refine Json.foldlM_optionalInt _ ?_ ?_
    · intro hnone
      rw [hnone]
    · intro n hn
      rw [readField, if_neg (by decide), if_neg (by decide), if_neg (by decide),
        if_pos (by decide), Json.readOptionalInt_ofInt (he.size n hn), hn]
      rfl
  rw [ofJson, Json.readRecord, List.append_assoc, List.append_assoc, foldlM_append_of_ok h1,
    List.cons_append, List.nil_append, foldlM_of_ok h2, foldlM_append_of_ok h3, h4]
  · rfl
  · simp

theorem writable_toJson {e : Export} (he : e.Storable) (h : e.toJson = .ok v) (d : Nat) :
    Json.Writable (d + 3) v := by
  obtain ⟨elements, helements, h⟩ := bind_eq_ok_iff.1 h
  cases h
  have hnames : ∀ m ∈ Json.optionalInt "binding" e.binding ++
      [(utf8 "type", Json.string e.type)] ++ Json.optionalList "elements" elements ++
      Json.optionalInt "sizeInBytes" e.sizeInBytes,
      Utf8.isValid m.1 = true ∧ Json.Writable (d + 2) m.2 := by
    intro m hm
    simp only [List.mem_append, List.mem_cons, List.not_mem_nil, or_false] at hm
    rcases hm with ((hm | rfl) | hm) | hm
    · exact Json.writable_optionalInt (by decide) m hm
    · exact ⟨show Utf8.isValid (utf8 "type") = true by decide, .string _ he.type⟩
    · exact Json.writable_optionalList (by decide)
        (writable_items (fun x hx v hv =>
          (ExportElement.read_toJson (he.elements x hx).1 (he.elements x hx).2 hv).2 d) helements)
        m hm
    · exact Json.writable_optionalInt (by decide) m hm
  exact .object (fun m hm => (hnames m hm).1) (fun m hm => (hnames m hm).2)

end Export

/-! ## Tables -/

namespace Stages

def kindOf (name : Bytes) : StageKind := (StageKind.ofName? name).getD default

theorem read_memberName {k : StageKind} (h : memberName k = .ok name) :
    StageKind.read name = .ok (kindOf name) ∧ kindOf name = k ∧ Utf8.isValid name = true := by
  unfold memberName at h
  split at h
  · rename_i hname
    cases h
    obtain ⟨hread, hvalid⟩ := StageKind.read_of_write hname
    have hkind : StageKind.ofName? name = some k := by
      unfold StageKind.read at hread
      split at hread
      · rename_i hfound
        cases hread
        exact hfound
      · cases hread
    have hof : kindOf name = k := by rw [kindOf, hkind]; rfl
    exact ⟨by rw [hread, hof], hof, hvalid⟩
  · cases h

theorem named_of_mapM {l : List (StageKind × Stage)} {named : List (Bytes × Stage)}
    (h : (l.mapM fun (k, st) => do return (← memberName k, st)) = .ok named) :
    named.map (fun n => (kindOf n.1, n.2)) = l ∧
      ∀ n ∈ named, StageKind.read n.1 = .ok (kindOf n.1) ∧ Utf8.isValid n.1 = true := by
  have hall := forall₂_of_mapM h
  clear h
  induction hall with
  | nil => simp
  | @cons e n l named hen _ ih =>
    obtain ⟨name, hname, hn⟩ := bind_eq_ok_iff.1 hen
    cases hn
    obtain ⟨hread, hkind, hvalid⟩ := read_memberName hname
    constructor
    · rw [List.map_cons, ih.1, hkind]
    · intro n hn
      rcases List.mem_cons.1 hn with rfl | hn
      · exact ⟨hread, hvalid⟩
      · exact ih.2 n hn

theorem requireAll_present (s : Stages) :
    requireAll (s.mapValues fun _ st => some st) = .ok s := by
  rw [requireAll, Dict.mapValues, foldlM_of_forall₂ (g := fun d (e : StageKind × Stage) => d.insert e.1 e.2)
    (m := s.toList)]
  · exact congrArg Except.ok (Dict.ofList_of_perm (List.Perm.refl _))
  · rw [List.forall₂_map_left_iff]
    exact List.forall₂_same.2 fun e _ d => rfl

theorem readMembers_of_forall₂ {members : List (Bytes × Json)}
    {entries : List (StageKind × Option Stage)}
    (h : List.Forall₂ (fun m e => StageKind.read m.1 = .ok e.1 ∧ Stage.ofJson m.2 = .ok e.2)
      members entries) : readMembers members = .ok (Dict.ofList entries) := by
  refine foldlM_of_forall₂ (h.imp ?_) Dict.empty
  rintro ⟨name, v⟩ ⟨kind, st⟩ ⟨hkind, hst⟩ d
  simp only [hkind, hst]
  rfl

theorem read_toJson {s : Stages} (hs : ∀ e ∈ s.toList, e.2.Storable) (h : s.toJson = .ok v) :
    ofJson v = .ok (some s.normal) ∧ ∀ d, Json.Writable (d + 4) v := by
  obtain ⟨named, hnamed, h⟩ := bind_eq_ok_iff.1 h
  obtain ⟨members, hmembers, h⟩ := bind_eq_ok_iff.1 h
  cases h
  obtain ⟨hkinds, hnames⟩ := named_of_mapM hnamed
  have hperm : (sortBy (fun a b => Bytes.precedes a.1 b.1) named).Perm named := sortBy_perm named
  generalize sortBy (fun a b => Bytes.precedes a.1 b.1) named = sorted at hperm hmembers
  have hgood : ∀ n ∈ sorted, StageKind.read n.1 = .ok (kindOf n.1) ∧ Utf8.isValid n.1 = true ∧
      n.2.Storable := by
    intro n hn
    have hn' := hperm.mem_iff.1 hn
    obtain ⟨hread, hvalid⟩ := hnames n hn'
    refine ⟨hread, hvalid, hs (kindOf n.1, n.2) ?_⟩
    rw [← hkinds]
    exact List.mem_map_of_mem hn'
  have hall := (List.forall₂_and_left _ _).2 ⟨hgood, forall₂_of_mapM hmembers⟩
  constructor
  · have hread : List.Forall₂
        (fun (m : Bytes × Json) (e : StageKind × Option Stage) =>
          StageKind.read m.1 = .ok e.1 ∧ Stage.ofJson m.2 = .ok e.2)
        members (sorted.map fun n => (kindOf n.1, some n.2.normal)) := by
      rw [List.forall₂_map_right_iff]
      refine (hall.imp ?_).flip
      rintro n m ⟨⟨hkind, _, hst⟩, hm⟩
      obtain ⟨v, hv, hm⟩ := bind_eq_ok_iff.1 hm
      cases hm
      exact ⟨hkind, Stage.read_toJson hst hv⟩
    have hperm' : (sorted.map fun n => (kindOf n.1, some n.2.normal)).Perm
        (s.normal.mapValues fun _ st => some st).toList := by
      simp only [normal, Dict.mapValues, ← hkinds, List.map_map]
      exact hperm.map _
    rw [ofJson, readMembers_of_forall₂ hread, Dict.ofList_of_perm hperm']
    change (do return some (← requireAll _)) = _
    rw [requireAll_present]
    rfl
  · intro d
    have hwritable : ∀ m ∈ members, Utf8.isValid m.1 = true ∧ Json.Writable (d + 3) m.2 := by
      intro m hm
      obtain ⟨n, hn, hm⟩ := (exists_of_mapM hmembers).1 m hm
      obtain ⟨v, hv, hm⟩ := bind_eq_ok_iff.1 hm
      cases hm
      obtain ⟨_, hvalid, hst⟩ := hgood n hn
      exact ⟨hvalid, Stage.writable_toJson hst hv d⟩
    exact .object (fun m hm => (hwritable m hm).1) (fun m hm => (hwritable m hm).2)

end Stages

namespace Exports

theorem read_toJson {e : Exports} (he : ∀ x ∈ e.toList, Utf8.isValid x.1 = true ∧ ∀ y ∈ x.2, y.Storable)
    (h : e.toJson = .ok v) :
    ofJson none v = .ok (some e.normal) ∧ ∀ d, Json.Writable (d + 4) v := by
  obtain ⟨members, hmembers, h⟩ := bind_eq_ok_iff.1 h
  cases h
  have hmember : ∀ (x : Bytes × Option Export) (m : Bytes × Json), (∀ y ∈ x.2, y.Storable) →
      member x = .ok m → m.1 = x.1 ∧ Export.ofJson m.2 = .ok (x.2.map Export.normal) ∧
        ∀ d, Json.Writable (d + 3) m.2 := by
    rintro ⟨name, entry⟩ m hx hm
    cases entry with
    | none =>
      cases hm
      exact ⟨rfl, rfl, fun d => .null _⟩
    | some exported =>
      obtain ⟨v, hv, hm⟩ := bind_eq_ok_iff.1 hm
      cases hm
      have hstorable := hx exported rfl
      exact ⟨rfl, Export.read_toJson hstorable hv, Export.writable_toJson hstorable hv⟩
  constructor
  · have hstep : List.Forall₂ (fun (m : Bytes × Json) (x : Bytes × Option Export) => ∀ d : Exports,
        (do return d.insert m.1 (← Export.ofJson m.2) : Json.Read Exports) =
        .ok (d.insert x.1 (x.2.map Export.normal))) members e.toList := by
      refine (((List.forall₂_and_left _ _).2 ⟨he, forall₂_of_mapM hmembers⟩).imp ?_).flip
      rintro x m ⟨⟨_, hx⟩, hm⟩ d
      obtain ⟨hname, hread, _⟩ := hmember x m hx hm
      rw [hread, hname]
      rfl
    have hdict : e.toList.foldl (fun d x => d.insert x.1 (x.2.map Export.normal)) Dict.empty =
        e.normal := by
      rw [← Dict.ofList_of_perm (List.Perm.refl e.normal.toList), Dict.ofList, normal,
        Dict.mapValues, List.foldl_map]
    rw [ofJson, Option.getD_none, foldlM_of_forall₂ hstep, hdict]
    rfl
  · intro d
    have hwritable : ∀ m ∈ members, Utf8.isValid m.1 = true ∧ Json.Writable (d + 3) m.2 := by
      intro m hm
      obtain ⟨x, hx, hm⟩ := (exists_of_mapM hmembers).1 m hm
      obtain ⟨hname, _, hwrite⟩ := hmember x m (he x hx).2 hm
      exact ⟨hname ▸ (he x hx).1, hwrite d⟩
    exact .object (fun m hm => (hwritable m hm).1) (fun m hm => (hwritable m hm).2)

end Exports

/-! ## Metadata -/

namespace Metadata

theorem eq_of_toJson {md : Metadata} (h : md.toJson = .ok v) :
    ∃ stages exports,
      (match md.stages with
        | some s => s.toJson
        | none => .ok .null) = .ok stages ∧
      (match md.exports with
        | some e => e.toJson
        | none => .ok .null) = .ok exports ∧
      v = .object [("shaderName", .string md.shaderName), ("stages", stages), ("exports", exports)] := by
  have hjoin : md.toJson = (match md.stages with
        | some s => s.toJson
        | none => .ok .null) >>= fun stages => (match md.exports with
        | some e => e.toJson
        | none => .ok .null) >>= fun exports => .ok (.object
          [("shaderName", .string md.shaderName), ("stages", stages), ("exports", exports)]) := by
    unfold toJson
    cases md.stages <;> cases md.exports <;> rfl
  rw [hjoin] at h
  obtain ⟨stages, hstages, h⟩ := bind_eq_ok_iff.1 h
  obtain ⟨exports, hexports, h⟩ := bind_eq_ok_iff.1 h
  cases h
  exact ⟨stages, exports, hstages, hexports, rfl⟩

theorem read_toJson {md : Metadata} (h : md.Storable) (hv : md.toJson = .ok v) :
    ofJson v = .ok md.normal ∧ ∀ d, Json.Writable (d + 5) v := by
  obtain ⟨stages, exports, hstages, hexports, rfl⟩ := eq_of_toJson hv
  have hs : Stages.ofJson stages = .ok (md.stages.map Stages.normal) ∧
      ∀ d, Json.Writable (d + 4) stages := by
    have hall := h.stages
    unfold stageTable at hall
    cases hmd : md.stages with
    | none =>
      rw [hmd] at hstages
      cases hstages
      exact ⟨rfl, fun d => .null _⟩
    | some s =>
      rw [hmd] at hstages hall
      exact Stages.read_toJson hall hstages
  have he : Exports.ofJson none exports = .ok (md.exports.map Exports.normal) ∧
      ∀ d, Json.Writable (d + 4) exports := by
    have hall := h.exports
    unfold exportTable at hall
    cases hmd : md.exports with
    | none =>
      rw [hmd] at hexports
      cases hexports
      exact ⟨rfl, fun d => .null _⟩
    | some e =>
      rw [hmd] at hexports hall
      exact Exports.read_toJson hall hexports
  constructor
  · have h1 : readField {} (utf8 "shaderName") (.string md.shaderName) =
        .ok { shaderName := md.shaderName } := by
      rw [readField, if_pos (by decide)]
      rfl
    have h2 : readField { shaderName := md.shaderName } (utf8 "stages") stages =
        .ok { shaderName := md.shaderName, stages := md.stages.map Stages.normal } := by
      rw [readField, if_neg (by decide), if_pos (by decide), hs.1]
      rfl
    have h3 : readField { shaderName := md.shaderName, stages := md.stages.map Stages.normal }
        (utf8 "exports") exports = .ok md.normal := by
      rw [readField, if_neg (by decide), if_neg (by decide), if_pos (by decide), he.1]
      rfl
    rw [ofJson, Json.readRecord, foldlM_of_ok h1, foldlM_of_ok h2, foldlM_of_ok h3]
    rfl
  · intro d
    refine .object ?_ ?_
    · simp only [List.mem_cons, List.not_mem_nil, or_false, forall_eq_or_imp, forall_eq]
      exact ⟨by decide, by decide, by decide⟩
    · simp only [List.mem_cons, List.not_mem_nil, or_false, forall_eq_or_imp, forall_eq]
      exact ⟨.string _ h.name, hs.2 d, he.2 d⟩

/-- Metadata is read back from its text, up to empty lists. -/
theorem ofText_text {md : Metadata} {t : Bytes} (h : md.Storable) (ht : md.text = .ok t) :
    ofText t = .ok md.normal := by
  obtain ⟨v, hv, ht⟩ := bind_eq_ok_iff.1 ht
  cases ht
  obtain ⟨hread, hwrite⟩ := read_toJson h hv
  rw [ofText, Json.read?_render (hwrite 9995)]
  exact hread

end Metadata

end ShaderForge
