import ShaderForge.Proofs.Shader.MetadataRoundTrip

/-!
# ShaderForge.Proofs.Shader.MetadataWriting

When metadata can be written, and what is not seen in the writing.

* `Metadata.Named`         — all kinds and types have a name.
* `Metadata.Named.text_eq_ok` — that is all it takes.
* `Metadata.toJson_normal` — an empty list is written as an absent one.
-/

namespace ShaderForge

/-! ## Names -/

/-- A type that has a keyword, a tag and a size. -/
def DataType.Known (t : DataType) : Prop := t.info?.isSome = true

theorem DataType.known_of_ofInfo? {p : Info → Bool} {t : DataType} (h : ofInfo? p = some t) : t.Known := by
  obtain ⟨i, hi, rfl⟩ := Option.map_eq_some_iff.1 h
  have hlt := (List.findIdx?_eq_some_iff_getElem.1 hi).1
  have hall : ∀ i < table.length, (info? ⟨UInt8.ofNat i⟩).isSome = true := by decide
  exact hall i hlt

def Stage.Named (st : Stage) : Prop := ∀ i ∈ st.inputs.getD [], i.type.Known

def Export.Named (x : Export) : Prop := ∀ e ∈ x.elements.getD [], e.type.Known

/-- All kinds and types have a name. -/
structure Metadata.Named (md : Metadata) : Prop where
  stages : ∀ e ∈ md.stageTable.toList, e.1.isKnown = true ∧ e.2.Named
  exports : ∀ e ∈ md.exportTable.toList, ∀ x ∈ e.2, x.Named

/-! ## What can be written -/

theorem DataType.Known.toJson_eq_ok {t : DataType} (h : t.Known) : ∃ v, t.toJson = .ok v := by
  obtain ⟨info, hinfo⟩ := Option.isSome_iff_exists.1 h
  exact ⟨.string info.tag, by simp [DataType.toJson, DataType.write, hinfo]⟩

theorem Stage.Named.toJson_eq_ok {st : Stage} (h : st.Named) : ∃ v, st.toJson = .ok v := by
  have hinputs : ∃ items, (st.inputs.getD []).mapM VertexInput.toJson = .ok items := by
    refine mapM_eq_ok fun i hi => ?_
    obtain ⟨v, hv⟩ := (h i hi).toJson_eq_ok
    exact ⟨_, bind_eq_ok_iff.2 ⟨v, hv, rfl⟩⟩
  obtain ⟨items, hitems⟩ := hinputs
  exact ⟨_, bind_eq_ok_iff.2 ⟨items, hitems, rfl⟩⟩

theorem Export.Named.toJson_eq_ok {x : Export} (h : x.Named) : ∃ v, x.toJson = .ok v := by
  have helements : ∃ items, (x.elements.getD []).mapM ExportElement.toJson = .ok items := by
    refine mapM_eq_ok fun e he => ?_
    obtain ⟨v, hv⟩ := (h e he).toJson_eq_ok
    exact ⟨_, bind_eq_ok_iff.2 ⟨v, hv, rfl⟩⟩
  obtain ⟨items, hitems⟩ := helements
  exact ⟨_, bind_eq_ok_iff.2 ⟨items, hitems, rfl⟩⟩

theorem StageKind.memberName_eq_ok {k : StageKind} (h : k.isKnown = true) : ∃ name, Stages.memberName k = .ok name := by
  obtain ⟨name, hname⟩ := Option.isSome_iff_exists.1 h
  exact ⟨name, by simp [Stages.memberName, StageKind.write, hname]⟩

theorem Stages.toJson_eq_ok {s : Stages} (h : ∀ e ∈ s.toList, e.1.isKnown = true ∧ e.2.Named) :
    ∃ v, s.toJson = .ok v := by
  have hnamed : ∃ named, (s.toList.mapM fun e => do return (← memberName e.1, e.2)) = .ok named := by
    refine mapM_eq_ok fun e he => ?_
    obtain ⟨name, hname⟩ := StageKind.memberName_eq_ok (h e he).1
    exact ⟨_, bind_eq_ok_iff.2 ⟨name, hname, rfl⟩⟩
  obtain ⟨named, hnamed⟩ := hnamed
  have hmembers : ∃ members, ((sortBy (fun a b => Bytes.precedes a.1 b.1) named).mapM
      fun m => do return (m.1, ← m.2.toJson)) = .ok members := by
    refine mapM_eq_ok fun n hn => ?_
    obtain ⟨e, he, hen⟩ := (exists_of_mapM hnamed).1 n ((sortBy_perm _).mem_iff.1 hn)
    obtain ⟨name, -, hen⟩ := bind_eq_ok_iff.1 hen
    cases hen
    obtain ⟨v, hv⟩ := (h e he).2.toJson_eq_ok
    exact ⟨_, bind_eq_ok_iff.2 ⟨v, hv, rfl⟩⟩
  obtain ⟨members, hmembers⟩ := hmembers
  exact ⟨_, bind_eq_ok_iff.2 ⟨named, hnamed, bind_eq_ok_iff.2 ⟨members, hmembers, rfl⟩⟩⟩

theorem Exports.toJson_eq_ok {e : Exports} (h : ∀ x ∈ e.toList, ∀ d ∈ x.2, d.Named) : ∃ v, e.toJson = .ok v := by
  have hmembers : ∀ x ∈ e.toList, ∃ m, Exports.member x = .ok m := by
    rintro ⟨name, entry⟩ hx
    cases entry with
    | none => exact ⟨_, rfl⟩
    | some d =>
      obtain ⟨v, hv⟩ := (h _ hx d rfl).toJson_eq_ok
      exact ⟨_, bind_eq_ok_iff.2 ⟨v, hv, rfl⟩⟩
  obtain ⟨members, hmembers⟩ := mapM_eq_ok hmembers
  exact ⟨_, bind_eq_ok_iff.2 ⟨members, hmembers, rfl⟩⟩

namespace Metadata

/-- The value of metadata: its name with the values of its tables, an absent table being null. -/
theorem toJson_eq (md : Metadata) :
    md.toJson = (do
      let stages ← (md.stages.map Stages.toJson).getD (.ok .null)
      let exports ← (md.exports.map Exports.toJson).getD (.ok .null)
      return .object [("shaderName", .string md.shaderName), ("stages", stages), ("exports", exports)]) := by
  unfold toJson
  cases md.stages <;> cases md.exports <;> rfl

theorem Named.toJson_eq_ok {md : Metadata} (h : md.Named) : ∃ v, md.toJson = .ok v := by
  have hstages : ∃ v, (md.stages.map Stages.toJson).getD (.ok .null) = .ok v := by
    have hall := h.stages
    unfold stageTable at hall
    cases hmd : md.stages with
    | none => exact ⟨_, rfl⟩
    | some s =>
      rw [hmd] at hall
      exact Stages.toJson_eq_ok hall
  have hexports : ∃ v, (md.exports.map Exports.toJson).getD (.ok .null) = .ok v := by
    have hall := h.exports
    unfold exportTable at hall
    cases hmd : md.exports with
    | none => exact ⟨_, rfl⟩
    | some e =>
      rw [hmd] at hall
      exact Exports.toJson_eq_ok hall
  obtain ⟨stages, hstages⟩ := hstages
  obtain ⟨exports, hexports⟩ := hexports
  rw [toJson_eq, hstages, hexports]
  exact ⟨_, rfl⟩

theorem Named.text_eq_ok {md : Metadata} (h : md.Named) : ∃ text, md.text = .ok text := by
  obtain ⟨v, hv⟩ := h.toJson_eq_ok
  exact ⟨_, bind_eq_ok_iff.2 ⟨v, hv, rfl⟩⟩

end Metadata

/-! ## Empty lists -/

theorem getD_listed {α : Type} (l : Option (List α)) : (listed l).getD [] = l.getD [] := by
  match l with
  | none => rfl
  | some [] => rfl
  | some (_ :: _) => rfl

theorem Stage.toJson_normal (st : Stage) : st.normal.toJson = st.toJson := by
  unfold toJson normal
  rw [getD_listed]

theorem Export.toJson_normal (x : Export) : x.normal.toJson = x.toJson := by
  unfold toJson normal
  rw [getD_listed]

theorem mapM_except_map {ε α β γ : Type} (f : α → Except ε β) (g : β → γ) (l : List α) :
    (l.mapM fun a => (f a).map g) = (l.mapM f).map (List.map g) := by
  induction l with
  | nil => rfl
  | cons a l ih =>
    rw [List.mapM_cons, List.mapM_cons, ih]
    cases f a with
    | error e => rfl
    | ok b => cases l.mapM f <;> rfl

theorem Stages.toJson_normal (s : Stages) : s.normal.toJson = s.toJson := by
  let named (e : StageKind × Stage) : Except MetadataWriteError (Bytes × Stage) := do
    return (← memberName e.1, e.2)
  have hnamed : s.normal.toList.mapM named = (s.toList.mapM named).map (List.map fun n => (n.1, n.2.normal)) := by
    rw [← mapM_except_map, normal, Dict.mapValues, List.mapM_map]
    refine congrArg (fun f => s.toList.mapM f) (funext fun e => ?_)
    simp only [named, Function.comp]
    cases memberName e.1 <;> rfl
  have hsort : ∀ l : List (Bytes × Stage), sortBy (fun a b => Bytes.precedes a.1 b.1)
      (l.map fun n => (n.1, n.2.normal)) =
      (sortBy (fun a b => Bytes.precedes a.1 b.1) l).map fun n => (n.1, n.2.normal) :=
    fun l => sortBy_map (fun _ _ => rfl) l
  show (s.normal.toList.mapM named >>= _) = (s.toList.mapM named >>= _)
  rw [hnamed]
  cases s.toList.mapM named with
  | error e => rfl
  | ok l => simp only [Except.map, bind, Except.bind, hsort, List.mapM_map, Function.comp_def, Stage.toJson_normal]

theorem Exports.toJson_normal (e : Exports) : e.normal.toJson = e.toJson := by
  have hmember : ∀ x : Bytes × Option Export, member (x.1, x.2.map Export.normal) = member x := by
    rintro ⟨name, entry⟩
    cases entry with
    | none => rfl
    | some d =>
      show (do return (name, ← d.normal.toJson) : Except MetadataWriteError _) = _
      rw [Export.toJson_normal]
      rfl
  unfold toJson normal Dict.mapValues
  rw [List.mapM_map]
  simp only [Function.comp_def, hmember]

namespace Metadata

theorem toJson_normal (md : Metadata) : md.normal.toJson = md.toJson := by
  rw [toJson_eq, toJson_eq, normal]
  cases md.stages <;> cases md.exports <;>
    simp only [Option.map_none, Option.map_some, Option.getD_none, Option.getD_some, Stages.toJson_normal,
      Exports.toJson_normal]

theorem text_normal (md : Metadata) : md.normal.text = md.text := by
  rw [text, text, toJson_normal]

theorem indentedText_normal (md : Metadata) : md.normal.indentedText = md.indentedText := by
  rw [indentedText, indentedText, toJson_normal]

end Metadata

end ShaderForge
