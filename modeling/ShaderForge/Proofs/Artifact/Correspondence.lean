import Mathlib
import ShaderForge.Proofs.Artifact.Container
import ShaderForge.Proofs.Shader.Orderings

/-!
# ShaderForge.Proofs.Artifact.Correspondence

Stages and binary chunks correspond one to one.

* `Stages.map_buffer_ordered` — buffers that count from zero in some order do so in storing order.
* `checkBuffers_eq_ok_iff`    — the check looks at the sorted stages, but accepts by the buffers alone.
* `File.stageChunk?`          — the place of the chunk that a stage has for its bytecode.
* `buffers_bijective`         — the check accepts the bijections, and what it says of an artifact that was decoded.
-/

namespace ShaderForge

/-! ## Buffers in storing order -/

theorem Stages.map_buffer_ordered {s : Stages} {n : Nat}
    (h : (s.toList.map (·.2.buffer)).Perm ((List.range n).map Int.ofNat)) :
    s.ordered.map (·.2.buffer) = (List.range n).map Int.ofNat := by
  have hperm : (s.ordered.map (·.2.buffer)).Perm ((List.range n).map Int.ofNat) :=
    ((sortBy_perm _).map _).trans h
  have hsorted : (s.ordered.map (·.2.buffer)).Pairwise (· ≤ ·) := by
    rw [List.pairwise_map]
    refine (sortBy_pairwise Stages.sorts_before s.toList).imp ?_
    intro a b hab
    simp only [Stages.before, Bool.or_eq_false_iff, decide_eq_false_iff_not] at hab
    exact Int.not_lt.1 hab.1
  have hrange : ((List.range n).map Int.ofNat).Pairwise (· ≤ ·) := by
    rw [List.pairwise_map]
    exact List.pairwise_le_range.imp fun hab => Int.ofNat_le.2 hab
  exact hperm.eq_of_pairwise (fun a b _ _ hab hba => Int.le_antisymm hab hba) hsorted hrange

namespace Artifact

theorem misplaced?_eq_none_iff {l : List (StageKind × Stage)} {place : Nat} :
    misplaced? place l = none ↔ l.map (·.2.buffer) = (List.range' place l.length).map Int.ofNat := by
  induction l generalizing place with
  | nil => simp [misplaced?]
  | cons e l ih =>
    obtain ⟨kind, st⟩ := e
    rw [misplaced?, List.map_cons, List.length_cons, List.range'_succ, List.map_cons, List.cons.injEq]
    split
    · rename_i hplace
      rw [ih]
      exact (and_iff_right hplace).symm
    · rename_i hplace
      exact iff_of_false (by simp) fun h => hplace h.1

/-- The check accepts when the buffers are 0, 1, … up to the number of chunks, in whatever order. -/
theorem checkBuffers_eq_ok_iff {s : Stages} {n : Nat} :
    checkBuffers s n = .ok () ↔ (s.toList.map (·.2.buffer)).Perm ((List.range n).map Int.ofNat) := by
  have hlength : s.ordered.length = s.size := (sortBy_perm s.toList).length_eq
  have hcheck : checkBuffers s n = .ok () ↔ s.size = n ∧ misplaced? 0 s.ordered = none := by
    unfold checkBuffers
    split
    · rename_i hne
      exact iff_of_false (by simp) fun h => hne h.1
    · rename_i heq
      cases misplaced? 0 s.ordered with
      | none => simpa using heq
      | some fault => simp
  rw [hcheck, misplaced?_eq_none_iff, hlength, ← List.range_eq_range']
  constructor
  · rintro ⟨rfl, hbuffers⟩
    rw [← hbuffers]
    exact ((sortBy_perm _).map _).symm
  · intro hperm
    have hsize : s.size = n := by simpa [Dict.size] using hperm.length_eq
    exact ⟨hsize, hsize ▸ Stages.map_buffer_ordered hperm⟩

theorem checkBuffers_eq_ok_iff_bijOn {s : Stages} {n : Nat} :
    checkBuffers s n = .ok () ↔
      Set.BijOn (fun e : StageKind × Stage => e.2.buffer) {e | e ∈ s.toList} (Set.Ico 0 (n : Int)) := by
  have hentries : s.toList.Nodup := s.ascending.nodup.of_map _
  have hrange : ((List.range n).map Int.ofNat).Nodup := List.nodup_range.map fun _ _ => Int.ofNat.inj
  have hmem : ∀ b : Int, b ∈ (List.range n).map Int.ofNat ↔ b ∈ Set.Ico 0 (n : Int) := by
    intro b
    rw [List.mem_map, Set.mem_Ico]
    constructor
    · rintro ⟨i, hi, rfl⟩
      rw [List.mem_range] at hi
      exact ⟨Int.natCast_nonneg i, Int.ofNat_lt.2 hi⟩
    · rintro ⟨hlow, hhigh⟩
      exact ⟨b.toNat, List.mem_range.2 (by omega), Int.toNat_of_nonneg hlow⟩
  rw [checkBuffers_eq_ok_iff]
  constructor
  · intro hperm
    refine ⟨fun e he => ?_, fun e he e' he' heq => ?_, fun b hb => ?_⟩
    · exact (hmem _).1 (hperm.mem_iff.1 (List.mem_map_of_mem he))
    · exact List.inj_on_of_nodup_map (hperm.nodup_iff.2 hrange) he he' heq
    · exact List.mem_map.1 (hperm.mem_iff.2 ((hmem b).2 hb))
  · rintro ⟨hmaps, hinj, hsurj⟩
    have hbuffers : (s.toList.map (·.2.buffer)).Nodup :=
      (List.nodup_map_iff_inj_on hentries).2 fun e he e' he' heq => hinj he he' heq
    refine (List.perm_ext_iff_of_nodup hbuffers hrange).2 fun b => ?_
    rw [hmem]
    constructor
    · intro hb
      obtain ⟨e, he, rfl⟩ := List.mem_map.1 hb
      exact hmaps he
    · intro hb
      exact List.mem_map.2 (hsurj hb)

/-! ## Chunks of an artifact -/

def binaryPlaces (chunks : List Chunk) : List Nat :=
  (List.range chunks.length).filter fun i => chunks[i]?.any (·.tag = .binary)

theorem mem_binaryPlaces {chunks : List Chunk} {i : Nat} :
    i ∈ binaryPlaces chunks ↔ ∃ c, chunks[i]? = some c ∧ c.tag = .binary := by
  rw [binaryPlaces, List.mem_filter, List.mem_range, Option.any_eq_true]
  simp only [decide_eq_true_eq]
  refine ⟨And.right, fun h => ⟨?_, h⟩⟩
  obtain ⟨c, hc, -⟩ := h
  exact (List.getElem?_eq_some_iff.1 hc).1

theorem nodup_binaryPlaces (chunks : List Chunk) : (binaryPlaces chunks).Nodup := List.nodup_range.filter _

theorem map_binaryPlaces (chunks : List Chunk) :
    (binaryPlaces chunks).map (fun i => chunks[i]?.map Chunk.payload) = (binaries chunks).map some := by
  induction chunks with
  | nil => rfl
  | cons c chunks ih =>
    have htail : binaryPlaces (c :: chunks) =
        (if c.tag = .binary then [0] else []) ++ (binaryPlaces chunks).map (· + 1) := by
      unfold binaryPlaces
      rw [List.length_cons, List.range_succ_eq_map, List.filter_cons, List.filter_map]
      by_cases htag : c.tag = .binary <;> simp [htag, Function.comp_def]
    rw [htail, List.map_append, List.map_map]
    by_cases htag : c.tag = .binary
    · simpa [binaries, htag, Function.comp_def] using ih
    · simpa [binaries, htag, Function.comp_def] using ih

theorem length_binaryPlaces (chunks : List Chunk) : (binaryPlaces chunks).length = (binaries chunks).length := by
  simpa using congrArg List.length (map_binaryPlaces chunks)

theorem getElem?_binaries (chunks : List Chunk) (j : Nat) :
    (binaries chunks)[j]? = (binaryPlaces chunks)[j]?.bind fun i => chunks[i]?.map Chunk.payload := by
  have hplace := congrArg (·[j]?) (map_binaryPlaces chunks)
  simp only [List.getElem?_map] at hplace
  cases hj : (binaryPlaces chunks)[j]? with
  | none =>
    rw [hj, Option.map_none, eq_comm, Option.map_eq_none_iff] at hplace
    rw [hplace, Option.bind_none]
  | some i =>
    rw [hj, Option.map_some, eq_comm, Option.map_eq_some_iff] at hplace
    obtain ⟨code, hcode, hi⟩ := hplace
    rw [hcode, Option.bind_some, hi]

/-- The place of the chunk with the bytecode of a stage, among all chunks. -/
def File.stageChunk? (f : File) (kind : StageKind) : Option Nat := do
  let st ← f.metadata.stageTable.get? kind
  if st.buffer < 0 then none else (binaryPlaces f.chunks)[st.buffer.toNat]?

/-- Each stage has a binary chunk of its own, and each binary chunk is that of one stage. -/
structure File.OneToOne (f : File) : Prop where
  bytecode : ∀ kind, f.stageBytecode? kind = (f.stageChunk? kind).bind fun i => f.chunks[i]?.map Chunk.payload
  present : ∀ kind, (f.stageBytecode? kind).isSome ↔ kind ∈ f.metadata.stageTable.keys
  distinct : ∀ kind kind' i, f.stageChunk? kind = some i → f.stageChunk? kind' = some i → kind = kind'
  owned : ∀ i, (∃ c, f.chunks[i]? = some c ∧ c.tag = .binary) ↔ ∃! kind, f.stageChunk? kind = some i

section Files

variable {f : File}

theorem stageChunk?_eq_some_iff {n : Nat} (hcheck : checkBuffers f.metadata.stageTable n = .ok ()) {kind : StageKind}
    {i : Nat} : f.stageChunk? kind = some i ↔
      ∃ st, (kind, st) ∈ f.metadata.stageTable.toList ∧ (binaryPlaces f.chunks)[st.buffer.toNat]? = some i := by
  obtain ⟨hmaps, -, -⟩ := checkBuffers_eq_ok_iff_bijOn.1 hcheck
  unfold File.stageChunk?
  rw [Option.bind_eq_bind, Option.bind_eq_some_iff]
  simp only [Dict.get?_eq_some_iff]
  refine exists_congr fun st => and_congr_right fun hst => ?_
  rw [if_neg (Int.not_lt.2 (hmaps hst).1)]

theorem stageBytecode?_eq_stageChunk? (hcode : f.bytecode = binaries f.chunks) (kind : StageKind) :
    f.stageBytecode? kind = (f.stageChunk? kind).bind fun i => f.chunks[i]?.map Chunk.payload := by
  unfold File.stageBytecode? File.stageChunk?
  cases f.metadata.stageTable.get? kind with
  | none => rfl
  | some st =>
    simp only [Option.bind_eq_bind, Option.bind_some, hcode, getElem?_binaries]
    split <;> rfl

theorem oneToOne_of_checkBuffers (hcode : f.bytecode = binaries f.chunks)
    (hcheck : checkBuffers f.metadata.stageTable f.bytecode.length = .ok ()) : f.OneToOne := by
  obtain ⟨hmaps, hinj, hsurj⟩ := checkBuffers_eq_ok_iff_bijOn.1 hcheck
  have hlength : f.bytecode.length = (binaryPlaces f.chunks).length := by rw [hcode, length_binaryPlaces]
  rw [hlength] at hmaps hsurj
  -- a buffer counts to one of the places
  have hplace : ∀ {kind st}, (kind, st) ∈ f.metadata.stageTable.toList →
      st.buffer.toNat < (binaryPlaces f.chunks).length ∧ (st.buffer.toNat : Int) = st.buffer := by
    intro kind st hst
    obtain ⟨hlow, hhigh⟩ : 0 ≤ st.buffer ∧ st.buffer < (binaryPlaces f.chunks).length := hmaps hst
    exact ⟨by omega, Int.toNat_of_nonneg hlow⟩
  have hdistinct : ∀ kind kind' i, f.stageChunk? kind = some i → f.stageChunk? kind' = some i → kind = kind' := by
    intro kind kind' i h h'
    obtain ⟨st, hst, hi⟩ := (stageChunk?_eq_some_iff hcheck).1 h
    obtain ⟨st', hst', hi'⟩ := (stageChunk?_eq_some_iff hcheck).1 h'
    have hsame := (List.getElem?_inj (hplace hst).1 (nodup_binaryPlaces f.chunks)).1 (hi.trans hi'.symm)
    have hbuffer : st.buffer = st'.buffer := by rw [← (hplace hst).2, hsame, (hplace hst').2]
    exact congrArg Prod.fst (hinj hst hst' hbuffer)
  refine ⟨stageBytecode?_eq_stageChunk? hcode, fun kind => ?_, hdistinct, fun i => ?_⟩
  · constructor
    · intro h
      obtain ⟨code, hsome⟩ := Option.isSome_iff_exists.1 h
      rw [stageBytecode?_eq_stageChunk? hcode, Option.bind_eq_some_iff] at hsome
      obtain ⟨i, hi, -⟩ := hsome
      obtain ⟨st, hst, -⟩ := (stageChunk?_eq_some_iff hcheck).1 hi
      exact List.mem_map.2 ⟨_, hst, rfl⟩
    · intro h
      obtain ⟨⟨kind, st⟩, hst, rfl⟩ := List.mem_map.1 h
      obtain ⟨hlt, -⟩ := hplace hst
      have hchunk := (stageChunk?_eq_some_iff hcheck).2 ⟨st, hst, List.getElem?_eq_getElem hlt⟩
      obtain ⟨c, hc, -⟩ := mem_binaryPlaces.1 (List.getElem_mem hlt)
      rw [stageBytecode?_eq_stageChunk? hcode, hchunk, Option.bind_some, hc]
      rfl
  · rw [← mem_binaryPlaces]
    constructor
    · intro hi
      obtain ⟨j, hlt, rfl⟩ := List.mem_iff_getElem.1 hi
      obtain ⟨⟨kind, st⟩, hst, hbuffer⟩ := hsurj (show (j : Int) ∈ _ from ⟨Int.natCast_nonneg j, Int.ofNat_lt.2 hlt⟩)
      obtain rfl : st.buffer.toNat = j := by rw [show st.buffer = j from hbuffer, Int.toNat_natCast]
      have hchunk := (stageChunk?_eq_some_iff hcheck).2 ⟨st, hst, List.getElem?_eq_getElem hlt⟩
      exact ⟨kind, hchunk, fun kind' hkind' => hdistinct _ _ _ hkind' hchunk⟩
    · rintro ⟨kind, hkind, -⟩
      obtain ⟨st, -, hi⟩ := (stageChunk?_eq_some_iff hcheck).1 hkind
      exact List.mem_of_getElem? hi

end Files

/-- Stages are accepted for a number of chunks exactly when their buffers count them one to one. So in an artifact that
is decoded, the stages of the metadata are those with bytecode, each has a binary chunk of its own, and no binary chunk
is left over. -/
theorem buffers_bijective :
    (∀ (s : Stages) (n : Nat), checkBuffers s n = .ok () ↔
      Set.BijOn (fun e : StageKind × Stage => e.2.buffer) {e | e ∈ s.toList} (Set.Ico 0 (n : Int))) ∧
    ∀ (data : Bytes) (f : File), decode data = .ok f → f.OneToOne := by
  refine ⟨fun s n => checkBuffers_eq_ok_iff_bijOn, fun data f h => ?_⟩
  obtain ⟨hcontainer, hcode, -⟩ := decode_eq_ok_iff.1 h
  refine oneToOne_of_checkBuffers hcode ?_
  rw [hcode, binaries_length]
  exact hcontainer.stages

/-- The bytecode of the pixel stage stands first, before the metadata, and a foreign chunk stands before that of the
vertex stage. -/
theorem buffers_bijective_scattered :
    let json : Bytes := utf8 "\x7b\"stages\":\x7b\"VERTEX_SHADER\":\x7b\"buffer\":1\x7d," ++
      utf8 "\"PIXEL_SHADER\":\x7b\"buffer\":0\x7d\x7d\x7d"
    let chunks : List Chunk := [⟨.binary, [7]⟩, ⟨.json, json⟩, ⟨⟨9⟩, [7]⟩, ⟨.binary, [7]⟩]
    ∃ data f, assemble .dxil chunks = .ok data ∧ decode data = .ok f ∧ f.OneToOne ∧
      f.stageChunk? .vertex = some 3 ∧ f.stageChunk? .pixel = some 0 := by
  intro json chunks
  have hdata : assemble .dxil chunks = .ok (frame .dxil (chunks.flatMap chunkBytes)) :=
    assemble_eq_ok_iff.2 ⟨rfl, by decide +kernel⟩
  have hread : (decodeBody (frame .dxil (chunks.flatMap chunkBytes)).length .dxil (chunks, none)).toOption.map
      (fun f => (f.stageChunk? .vertex, f.stageChunk? .pixel)) = some (some 3, some 0) := by decide +kernel
  rw [← decode_of_assemble hdata] at hread
  cases h : decode (frame .dxil (chunks.flatMap chunkBytes)) with
  | error e =>
    rw [h] at hread
    cases hread
  | ok f =>
    rw [h] at hread
    simp only [Except.toOption, Option.map_some, Option.some.injEq, Prod.mk.injEq] at hread
    exact ⟨_, f, hdata, h, buffers_bijective.2 _ f h, hread.1, hread.2⟩

end Artifact

end ShaderForge
