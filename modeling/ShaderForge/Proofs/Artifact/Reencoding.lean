import ShaderForge.Proofs.Artifact.RoundTrip
import ShaderForge.Proofs.Shader.MetadataReading

/-!
# ShaderForge.Proofs.Artifact.Reencoding

What was read from an artifact makes an artifact again, whatever the metadata in it looked like. One pass brings the
metadata into the form in which it stays.

* `readable_of_decode` — metadata from an artifact can be written.
* `encode_of_decode`  — the second artifact, and that it is made again from what is read of it.
-/

namespace ShaderForge
namespace Artifact

/-- Metadata from an artifact can be stored and written, and its stages match the bytecode. -/
theorem readable_of_decode {data : Bytes} {f : File} (h : decode data = .ok f) :
    f.metadata.Readable ∧ checkBuffers f.metadata.stageTable f.bytecode.length = .ok () := by
  obtain ⟨hcontainer, hcode, -⟩ := decode_eq_ok_iff.1 h
  obtain ⟨-, text, -, -, -, hmd⟩ := hcontainer.metadata
  refine ⟨Metadata.readable_of_ofText hmd, ?_⟩
  rw [hcode, binaries_length]
  exact hcontainer.stages

/-- Encoding what was decoded fails only if the result would be too large. Decoding the result gives the same dialect,
bytecode and metadata, with empty lists taken away; and encoding that gives the result once more. -/
theorem encode_of_decode {data : Bytes} {f : File} (h : decode data = .ok f) :
    ∃ text, f.metadata.text = .ok text ∧
      let out := frame f.dialect ((layout text f.bytecode).flatMap chunkBytes)
      (sizeLimit ≤ out.length → ∃ e, encode f.dialect (some f.metadata) f.bytecode = .error e ∧
        ((∃ tag size, e = .chunkTooLarge tag size) ∨ ∃ size, e = .artifactTooLarge size)) ∧
      (out.length < sizeLimit →
        encode f.dialect (some f.metadata) f.bytecode = .ok out ∧
        ∃ g, decode out = .ok g ∧ g.dialect = f.dialect ∧ g.bytecode = f.bytecode ∧
          g.metadata = f.metadata.normal ∧ encode g.dialect (some g.metadata) g.bytecode = .ok out) := by
  obtain ⟨hread, hcheck⟩ := readable_of_decode h
  obtain ⟨text, htext⟩ := hread.named.text_eq_ok
  refine ⟨text, htext, fun hlarge => ?_, fun hfits => ?_⟩
  · cases hassemble : assemble f.dialect (layout text f.bytecode) with
    | error e =>
      refine ⟨e, ?_, (oversized_of_assemble hassemble).1⟩
      rw [encode, hcheck, htext]
      exact hassemble
    | ok out =>
      obtain ⟨rfl, hfits⟩ := assemble_eq_ok_iff.1 hassemble
      exact absurd hfits (Nat.not_lt.2 hlarge)
  · have hassemble := assemble_eq_ok_iff.2 ⟨rfl, hfits⟩
    refine ⟨encode_eq_ok_iff.2 ⟨hcheck, text, htext, hassemble⟩, _, decode_layout hread.storable htext hcheck hassemble,
      rfl, rfl, rfl, encode_eq_ok_iff.2 ⟨?_, text, ?_, hassemble⟩⟩
    · rw [Metadata.stageTable_normal, checkBuffers_normal]
      exact hcheck
    · rw [Metadata.text_normal]
      exact htext

/-- Names in another case, a member given twice, members that are null or unknown, a broken string, an empty list and
a foreign chunk: the second artifact differs from the first, and stays. -/
theorem encode_of_decode_untidy :
    let json : Bytes := utf8 "\x7b\"x\":[1], \"STAGES\":\x7b\"PIXEL_SHADER\":\x7b\"inputs\":[], \"Buffer\":5," ++
      utf8 "\"buffer\":0, \"entryPoint\":\"\\ud800\"\x7d\x7d, \"exports\":null, \"shaderName\":\"" ++ [0xFF] ++
      utf8 "\"\x7d"
    let tidy : Bytes := utf8 "\x7b\"shaderName\":\"\uFFFD\",\"stages\":\x7b\"PIXEL_SHADER\":" ++
      utf8 "\x7b\"entryPoint\":\"\uFFFD\",\"buffer\":0\x7d\x7d,\"exports\":null\x7d"
    ∃ data f g, decode data = .ok f ∧ f.chunks = [⟨⟨2⟩, []⟩, ⟨.json, json⟩, ⟨.binary, [7]⟩] ∧
      encode f.dialect (some f.metadata) f.bytecode = .ok (frame ⟨9⟩ ((layout tidy [[7]]).flatMap chunkBytes)) ∧
      decode (frame ⟨9⟩ ((layout tidy [[7]]).flatMap chunkBytes)) = .ok g ∧ g.metadata = f.metadata.normal ∧
      encode g.dialect (some g.metadata) g.bytecode = .ok (frame ⟨9⟩ ((layout tidy [[7]]).flatMap chunkBytes)) := by
  intro json tidy
  let chunks : List Chunk := [⟨⟨2⟩, []⟩, ⟨.json, json⟩, ⟨.binary, [7]⟩]
  have hdata : assemble ⟨9⟩ chunks = .ok (frame ⟨9⟩ (chunks.flatMap chunkBytes)) :=
    assemble_eq_ok_iff.2 ⟨rfl, by decide +kernel⟩
  have hread : (decodeBody (frame ⟨9⟩ (chunks.flatMap chunkBytes)).length ⟨9⟩ (chunks, none)).toOption.map
      (fun f => (f.metadata.text.toOption, f.dialect, f.bytecode, f.chunks)) =
      some (some tidy, ⟨9⟩, [[7]], chunks) := by decide +kernel
  rw [← decode_of_assemble hdata] at hread
  cases h : decode (frame ⟨9⟩ (chunks.flatMap chunkBytes)) with
  | error e =>
    rw [h] at hread
    cases hread
  | ok f =>
    rw [h] at hread
    simp only [Except.toOption, Option.map_some, Option.some.injEq, Prod.mk.injEq] at hread
    obtain ⟨hf, hdialect, hcode, hchunks⟩ := hread
    obtain ⟨text, htext, -, hfits⟩ := encode_of_decode h
    rw [htext] at hf
    cases hf
    rw [hdialect, hcode] at hfits
    obtain ⟨hencode, g, hg, -, -, hmd, hagain⟩ := hfits (by decide +kernel)
    exact ⟨_, f, g, h, hchunks, by rw [hdialect, hcode]; exact hencode, hg, hmd, hagain⟩

end Artifact
end ShaderForge
