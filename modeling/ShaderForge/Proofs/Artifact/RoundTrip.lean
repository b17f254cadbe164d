import ShaderForge.Proofs.Artifact.Container
import ShaderForge.Proofs.Shader.MetadataRoundTrip

/-!
# ShaderForge.Proofs.Artifact.RoundTrip

What is stored in an artifact is read back from it.

* `checkBuffers_normal` — the correspondence of stages and binary chunks does not depend on empty lists.
* `decode_layout`       — what decoding gives for metadata and bytecode.
* `encode_eq_ok_iff`    — when metadata and bytecode make an artifact, and which.
* `decode_encode`       — the round trip.
-/

namespace ShaderForge

theorem Stages.ordered_normal (s : Stages) :
    s.normal.ordered = s.ordered.map fun e => (e.1, e.2.normal) :=
  sortBy_map (fun _ _ => rfl) s.toList

theorem Metadata.stageTable_normal (md : Metadata) : md.normal.stageTable = md.stageTable.normal := by
  unfold stageTable normal
  cases md.stages <;> rfl

namespace Artifact

theorem misplaced?_normal (place : Nat) (l : List (StageKind × Stage)) :
    misplaced? place (l.map fun e => (e.1, e.2.normal)) = misplaced? place l := by
  induction l generalizing place with
  | nil => rfl
  | cons e l ih =>
    simp only [List.map_cons, misplaced?, ih]
    rfl

theorem checkBuffers_normal (s : Stages) (chunks : Nat) :
    checkBuffers s.normal chunks = checkBuffers s chunks := by
  have hsize : s.normal.size = s.size := List.length_map _
  simp only [checkBuffers, hsize, Stages.ordered_normal, misplaced?_normal]

def layout (text : Bytes) (bytecode : List Bytes) : List Chunk :=
  ⟨.json, text⟩ :: bytecode.map fun code => ⟨.binary, code⟩

theorem binaries_layout (text : Bytes) (bytecode : List Bytes) :
    binaries (layout text bytecode) = bytecode := by
  have hbinary : ∀ l : List Bytes, binaries (l.map fun code => ⟨.binary, code⟩) = l := by
    intro l
    induction l with
    | nil => rfl
    | cons code l ih =>
      simp only [binaries, List.map_cons, List.filter_cons, decide_true, if_true] at ih ⊢
      rw [ih]
  exact hbinary bytecode

theorem encode_eq_ok_iff {dialect : Dialect} {md : Metadata} {bytecode : List Bytes} {out : Bytes} :
    encode dialect (some md) bytecode = .ok out ↔
      checkBuffers md.stageTable bytecode.length = .ok () ∧
        ∃ text, md.text = .ok text ∧ assemble dialect (layout text bytecode) = .ok out := by
  cases hcheck : checkBuffers md.stageTable bytecode.length with
  | error fault => simp [encode, hcheck]
  | ok _ =>
    cases htext : md.text with
    | error fault => simp [encode, hcheck, htext]
    | ok text => simp [encode, hcheck, htext, layout]

/-- What decoding gives for metadata and bytecode laid out as an artifact. -/
theorem decode_layout {dialect : Dialect} {md : Metadata} {text out : Bytes} {bytecode : List Bytes}
    (hmd : md.Storable) (htext : md.text = .ok text)
    (hcheck : checkBuffers md.stageTable bytecode.length = .ok ())
    (hassemble : assemble dialect (layout text bytecode) = .ok out) :
    decode out = .ok ⟨UInt32.ofNat out.length, dialect, md.normal, bytecode, layout text bytecode⟩ := by
  rw [decode_of_assemble hassemble, decodeBody_eq_ok_iff]
  refine ⟨rfl, ⟨text, rfl, Metadata.ofText_text hmd htext⟩, ?_, rfl, rfl, ?_, rfl⟩
  · rw [Metadata.stageTable_normal, checkBuffers_normal, binaries_layout]
    exact hcheck
  · rw [binaries_layout]

/-- An artifact that was made holds what it was made of: decoding it gives the dialect, the bytecode in its
order, one chunk of metadata with one chunk of bytecode each behind it, and the metadata with empty lists
taken away. -/
theorem decode_encode {dialect : Dialect} {md : Metadata} {bytecode : List Bytes} {out : Bytes}
    (hmd : md.Storable) (h : encode dialect (some md) bytecode = .ok out) :
    ∃ f, decode out = .ok f ∧ f.dialect = dialect ∧ f.size.toNat = out.length ∧
      f.bytecode = bytecode ∧ f.metadata = md.normal ∧
      ∃ text, md.text = .ok text ∧
        f.chunks = ⟨.json, text⟩ :: bytecode.map fun code => ⟨.binary, code⟩ := by
  obtain ⟨hcheck, text, htext, hassemble⟩ := encode_eq_ok_iff.1 h
  have hlt := (assemble_eq_ok_iff.1 hassemble).2
  refine ⟨_, decode_layout hmd htext hcheck hassemble, rfl, ?_, rfl, rfl, text, htext, rfl⟩
  simp only [sizeLimit] at hlt
  simp only [UInt32.toNat_ofNat']
  omega

/-- A name with characters that are escaped, an empty list, an export without description and a stage
without bytecode. -/
theorem decode_encode_sparse :
    let st : Stage := { entryPoint := "vs_main", inputs := some [], inputsSizePerVertex := some 0 }
    let md : Metadata :=
      { shaderName := "a<b\"", stages := some (Dict.ofList [(.vertex, st)]),
        exports := some (Dict.ofList [("Lights", none)]) }
    ∃ out f, encode .spirv (some md) [[]] = .ok out ∧ decode out = .ok f ∧ f.bytecode = [[]] ∧
      f.metadata = md.normal := by
  intro st md
  have hst : st.Storable :=
    ⟨by decide, ⟨by decide, by decide⟩, by simp [st], by simp [st, FitsWord]⟩
  have hmd : md.Storable := by
    refine ⟨by decide, ?_, ?_⟩
    · intro e he
      obtain rfl := List.mem_singleton.1 (show e ∈ [(StageKind.vertex, st)] from he)
      exact hst
    · intro e he
      obtain rfl := List.mem_singleton.1 (show e ∈ [(utf8 "Lights", none)] from he)
      exact ⟨by decide, by simp⟩
  have hok : (encode .spirv (some md) [[]]).isOk = true := by decide +kernel
  cases h : encode .spirv (some md) [[]] with
  | error e =>
    rw [h] at hok
    cases hok
  | ok out =>
    obtain ⟨f, hf, _, _, hcode, hmeta, _⟩ := decode_encode hmd h
    exact ⟨out, f, rfl, hf, hcode, hmeta⟩

end Artifact
end ShaderForge
