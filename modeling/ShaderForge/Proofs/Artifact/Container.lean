import ShaderForge.Artifact.Decode
import ShaderForge.Artifact.Encode
import ShaderForge.Proofs.Text.Bytes

/-!
# ShaderForge.Proofs.Artifact.Container

The language of artifacts. Cutting a body into chunks undoes `chunkBytes`, and `chunkBytes` undoes the cutting, so
`decode` accepts exactly what `assemble` produces around readable metadata and matching stages.

* `chunksFrom_flatMap`, `flatMap_of_chunksFrom` — the two directions for a body.
* `sliceWalk` — the same cut by offsets into the whole artifact, where every slice is checked; it never misses.
* `Container` — what it takes to be an artifact.
* `decode_accepts_exactly_containers` — `decode` succeeds on exactly these, and its result is forced.
-/

namespace ShaderForge
namespace Artifact

variable {dialect : Dialect} {chunks : List Chunk} {data : Bytes}

/-! ## Words -/

theorem toNat_ofOctets (a b c d : UInt8) :
    (ofOctets a b c d).toNat =
      a.toNat + 0x100 * b.toNat + 0x10000 * c.toNat + 0x1000000 * d.toNat := by
  have ha := a.toNat_lt
  have hb := b.toNat_lt
  have hc := c.toNat_lt
  have hd := d.toNat_lt
  simp only [ofOctets, UInt32.toNat_or, UInt32.toNat_shiftLeft, UInt8.toNat_toUInt32,
    Nat.shiftLeft_eq]
  simp only [UInt32.reduceToNat, Nat.reduceMod]
  rw [Nat.mod_eq_of_lt (by omega), Nat.mod_eq_of_lt (by omega), Nat.mod_eq_of_lt (by omega)]
  have hab : a.toNat ||| b.toNat * 2 ^ 8 = b.toNat * 2 ^ 8 + a.toNat := by
    rw [Nat.or_comm, Nat.mul_comm, Nat.two_pow_add_eq_or_of_lt ha]
  have habc : b.toNat * 2 ^ 8 + a.toNat ||| c.toNat * 2 ^ 16 =
      c.toNat * 2 ^ 16 + (b.toNat * 2 ^ 8 + a.toNat) := by
    rw [Nat.or_comm, Nat.mul_comm c.toNat, Nat.two_pow_add_eq_or_of_lt (by omega)]
  rw [hab, habc, Nat.or_comm, Nat.mul_comm d.toNat, ← Nat.two_pow_add_eq_or_of_lt (by omega)]
  omega

theorem word_ofOctets (a b c d : UInt8) : word (ofOctets a b c d) = [a, b, c, d] := by
  have ha := a.toNat_lt
  have hb := b.toNat_lt
  have hc := c.toNat_lt
  have hd := d.toNat_lt
  simp only [word, List.cons.injEq, and_true, ← UInt8.toNat_inj, UInt32.toNat_toUInt8,
    UInt32.toNat_shiftRight, Nat.shiftRight_eq_div_pow, toNat_ofOctets, UInt32.reduceToNat,
    Nat.reduceMod]
  omega

theorem ofOctets_word (w : UInt32) :
    ofOctets w.toUInt8 (w >>> 8).toUInt8 (w >>> 16).toUInt8 (w >>> 24).toUInt8 = w := by
  have hw := w.toNat_lt
  simp only [← UInt32.toNat_inj, toNat_ofOctets, UInt32.toNat_toUInt8, UInt32.toNat_shiftRight,
    Nat.shiftRight_eq_div_pow, UInt32.reduceToNat, Nat.reduceMod]
  omega

@[simp] theorem word_length (w : UInt32) : (word w).length = 4 := rfl

theorem word?_word (w : UInt32) (s : Bytes) : word? (word w ++ s) = some (w, s) := by
  simp only [word, List.cons_append, List.nil_append, word?, ofOctets_word]

theorem eq_word_of_word? {s rest : Bytes} {w : UInt32} (h : word? s = some (w, rest)) :
    s = word w ++ rest := by
  unfold word? at h
  split at h
  · rename_i a b c d r
    simp only [Option.some.injEq, Prod.mk.injEq] at h
    obtain ⟨rfl, rfl⟩ := h
    rw [word_ofOctets]; rfl
  · cases h

/-! ## Chunks -/

theorem chunkBytes_length (c : Chunk) : (chunkBytes c).length = 8 + c.payload.length := by
  simp [chunkBytes]; omega

theorem length_le_flatMap_chunkBytes {c : Chunk} {cs : List Chunk} (h : c ∈ cs) :
    c.payload.length ≤ (cs.flatMap chunkBytes).length := by
  induction cs with
  | nil => cases h
  | cons d ds ih =>
    simp only [List.flatMap_cons, List.length_append]
    rcases List.mem_cons.1 h with rfl | h
    · have := chunkBytes_length c; omega
    · have := ih h; omega

theorem toNat_ofNat_length {s : Bytes} (h : s.length < sizeLimit) :
    (UInt32.ofNat s.length).toNat = s.length := by
  simp only [sizeLimit] at h
  simp only [UInt32.toNat_ofNat']
  omega

/-- One step of the cut: a chunk with its header at the front comes off whole. -/
theorem chunksFrom_chunkBytes (offset index : Nat) {c : Chunk} (hc : c.payload.length < sizeLimit)
    (s : Bytes) :
    chunksFrom offset index (chunkBytes c ++ s) =
      (c :: (chunksFrom (offset + chunkHeaderSize + c.payload.length) (index + 1) s).1,
        (chunksFrom (offset + chunkHeaderSize + c.payload.length) (index + 1) s).2) := by
  simp only [chunkBytes, word, List.cons_append, List.nil_append]
  rw [chunksFrom]
  simp only [ofOctets_word, toNat_ofNat_length hc, List.length_append]
  rw [if_neg (by omega)]
  simp

theorem chunksFrom_flatMap (cs : List Chunk) :
    ∀ (offset index : Nat), (∀ c ∈ cs, c.payload.length < sizeLimit) →
      chunksFrom offset index (cs.flatMap chunkBytes) = (cs, none) := by
  induction cs with
  | nil => intro offset index _; simp [chunksFrom]
  | cons c cs ih =>
    intro offset index h
    have hc : c.payload.length < sizeLimit := h c (by simp)
    rw [List.flatMap_cons, chunksFrom_chunkBytes offset index hc,
      ih _ _ fun d hd => h d (List.mem_cons_of_mem _ hd)]

/-- A cut that is not broken off leaves nothing out: the chunks, written again, are the body. -/
theorem flatMap_of_chunksFrom (offset index : Nat) (s : Bytes) :
    ∀ cs, chunksFrom offset index s = (cs, none) → cs.flatMap chunkBytes = s := by
  fun_induction chunksFrom offset index s with
  | case1 => intro cs h; cases h; rfl
  | case2 offset index a b c d e f g h' rest tag needed hlt =>
    intro cs h; cases h
  | case3 offset index a b c d e f g h' rest tag needed hlt chunks stop heq ih =>
    intro cs h
    simp only [Prod.mk.injEq] at h
    obtain ⟨rfl, rfl⟩ := h
    have hrest := ih chunks heq
    have hlen : (rest.take needed).length = needed := by
      rw [List.length_take]; omega
    rw [List.flatMap_cons, hrest, chunkBytes, hlen]
    simp only [tag, needed, UInt32.ofNat_toNat, word_ofOctets, List.cons_append, List.nil_append,
      List.take_append_drop]
  | case4 => intro cs h; cases h

/-! ## Whole artifacts -/

theorem frame_length (dialect : Dialect) (body : Bytes) :
    (frame dialect body).length = headerSize + body.length := by
  have hm : magic.length = 8 := by decide
  simp [frame, hm, headerSize]; omega

theorem assemble_eq_ok_iff :
    assemble dialect chunks = .ok data ↔
      data = frame dialect (chunks.flatMap chunkBytes) ∧ data.length < sizeLimit := by
  unfold assemble
  constructor
  · intro h
    split at h
    · cases h
    · simp only at h
      split at h
      · cases h
      · rename_i hlt
        cases h
        exact ⟨rfl, by omega⟩
  · rintro ⟨rfl, hlt⟩
    have hnone : (chunks.find? fun c => decide (sizeLimit ≤ c.payload.length)) = none := by
      rw [List.find?_eq_none]
      intro c hc
      have hle := length_le_flatMap_chunkBytes hc
      rw [frame_length] at hlt
      simp only [decide_eq_true_eq]
      omega
    rw [hnone]
    simp only
    rw [if_neg (by omega)]

theorem oversized_of_assemble {e : EncodeError} (h : assemble dialect chunks = .error e) :
    ((∃ tag size, e = .chunkTooLarge tag size) ∨ ∃ size, e = .artifactTooLarge size) ∧
      sizeLimit ≤ (frame dialect (chunks.flatMap chunkBytes)).length := by
  constructor
  · unfold assemble at h
    split at h
    · cases h
      exact .inl ⟨_, _, rfl⟩
    · simp only at h
      split at h
      · cases h
        exact .inr ⟨_, rfl⟩
      · cases h
  · refine Nat.not_lt.1 fun hlt => ?_
    rw [assemble_eq_ok_iff.2 ⟨rfl, hlt⟩] at h
    cases h

theorem payload_lt_of_assemble (h : assemble dialect chunks = .ok data) :
    ∀ c ∈ chunks, c.payload.length < sizeLimit := by
  obtain ⟨rfl, hlt⟩ := assemble_eq_ok_iff.1 h
  intro c hc
  have hle := length_le_flatMap_chunkBytes hc
  rw [frame_length] at hlt
  omega

/-- The body of an artifact, once its chunks are cut: the metadata is read and its stages are matched. -/
def decodeBody (size : Nat) (dialect : Dialect) (cut : List Chunk × Option Truncation) :
    Except DecodeError File :=
  match metadataOf cut.1 cut.2 with
  | .error e => .error e
  | .ok md =>
    match checkBuffers md.stageTable (binaries cut.1).length with
    | .error fault => .error (.stages fault)
    | .ok () => .ok ⟨UInt32.ofNat size, dialect, md, binaries cut.1, cut.1⟩

theorem decode_frame {body : Bytes} (h : headerSize + body.length < sizeLimit) :
    decode (frame dialect body) =
      decodeBody (headerSize + body.length) dialect (chunksFrom headerSize 0 body) := by
  have hsize : (UInt32.ofNat (headerSize + body.length)).toNat = headerSize + body.length := by
    simp only [sizeLimit] at h
    simp only [UInt32.toNat_ofNat']
    omega
  have hmagic : Bytes.after? magic (frame dialect body) =
      some (word (UInt32.ofNat (headerSize + body.length)) ++ (word dialect.code ++ body)) := by
    simp only [frame, List.append_assoc]
    exact Bytes.after?_append magic _
  unfold decode
  rw [if_neg (by rw [frame_length]; omega), hmagic]
  simp only [word?_word, frame_length, hsize, ne_eq, not_true_eq_false, if_false]
  rfl

theorem frame_of_decode {f : File} (h : decode data = .ok f) :
    ∃ dialect body, data = frame dialect body ∧ data.length < sizeLimit := by
  unfold decode at h
  split at h
  · cases h
  split at h
  · cases h
  rename_i afterMagic hmagic
  split at h
  · cases h
  rename_i size afterSize hsize
  split at h
  · cases h
  rename_i flags body hflags
  split at h
  · cases h
  rename_i hlen
  have hdata : data = magic ++ (word size ++ (word flags ++ body)) := by
    rw [Bytes.eq_append_of_after? hmagic, eq_word_of_word? hsize, eq_word_of_word? hflags]
  have hlength : data.length = headerSize + body.length := by
    have hm : magic.length = 8 := by decide
    rw [hdata]; simp [hm, headerSize]; omega
  have hstated : size.toNat = data.length := Decidable.not_not.1 hlen
  have hlt := size.toNat_lt
  refine ⟨⟨flags⟩, body, ?_, by simp only [sizeLimit]; omega⟩
  rw [frame, ← hlength, ← hstated, UInt32.ofNat_toNat, hdata]
  simp only [List.append_assoc]

theorem decodeBody_eq_ok_iff {size : Nat} {stop : Option Truncation} {f : File} :
    decodeBody size dialect (chunks, stop) = .ok f ↔
      stop = none ∧
        (∃ text, metadataText? chunks = some text ∧ Metadata.ofText text = .ok f.metadata) ∧
        checkBuffers f.metadata.stageTable (binaries chunks).length = .ok () ∧
        f.size = UInt32.ofNat size ∧ f.dialect = dialect ∧ f.bytecode = binaries chunks ∧
        f.chunks = chunks := by
  unfold decodeBody metadataOf
  cases hm : metadataText? chunks with
  | none => cases stop <;> simp
  | some text =>
    cases ht : Metadata.ofText text with
    | error fault => cases stop <;> simp [ht]
    | ok md =>
      cases stop with
      | some t => simp [ht]
      | none =>
        cases hc : checkBuffers md.stageTable (binaries chunks).length with
        | error fault =>
          simp only [Option.map_some, ht, hc]
          constructor
          · intro h; cases h
          · rintro ⟨_, ⟨text', htext, hmd⟩, hcheck, _⟩
            cases htext
            rw [ht] at hmd
            cases hmd
            rw [hc] at hcheck
            cases hcheck
        | ok u =>
          simp only [Option.map_some, ht, hc]
          constructor
          · intro h
            cases h
            exact ⟨trivial, ⟨text, rfl, ht⟩, hc, rfl, rfl, rfl, rfl⟩
          · rintro ⟨_, ⟨text', htext, hmd⟩, _, hsize, hdialect, hcode, hchunks⟩
            cases htext
            rw [ht] at hmd
            cases hmd
            subst hdialect
            rw [← hsize, ← hcode, ← hchunks]

/-! ## The cut by offsets -/

/-- The octets from `start` up to `stop`, or nothing when they do not lie within `s`. -/
def slice? (s : Bytes) (start stop : Nat) : Option Bytes :=
  if start ≤ stop ∧ stop ≤ s.length then some ((s.drop start).take (stop - start)) else none

theorem slice?_eq_some {s : Bytes} {start width : Nat} (h : start + width ≤ s.length) :
    slice? s start (start + width) = some ((s.drop start).take width) := by
  rw [slice?, if_pos ⟨by omega, h⟩, Nat.add_sub_cancel_left]

def wordAt? (data : Bytes) (offset : Nat) : Option UInt32 := do
  let octets ← slice? data offset (offset + 4)
  let (w, _) ← word? octets
  return w

/-- The cut of `chunksFrom`, made by an offset that moves through the whole artifact. Every octet is taken by a
checked slice, and nothing is given back once a slice lies outside. -/
def sliceWalk (data : Bytes) (offset index : Nat) : Option (List Chunk × Option Truncation) :=
  if data.length ≤ offset then some ([], none)
  else if data.length - offset < chunkHeaderSize then some ([], some (.chunkHeader offset))
  else do
    let tag ← wordAt? data offset
    let needed ← wordAt? data (offset + 4)
    let start := offset + chunkHeaderSize
    if data.length - start < needed.toNat then
      some ([], some (.chunkPayload index ⟨tag⟩ needed.toNat (data.length - start)))
    else
      let payload ← slice? data start (start + needed.toNat)
      let (chunks, stop) ← sliceWalk data (start + needed.toNat) (index + 1)
      some (⟨⟨tag⟩, payload⟩ :: chunks, stop)
termination_by data.length - offset
decreasing_by simp only [chunkHeaderSize] at *; omega

theorem wordAt?_eq_some {rest : Bytes} {offset : Nat} {a b c d : UInt8}
    (h : data.drop offset = a :: b :: c :: d :: rest) :
    wordAt? data offset = some (ofOctets a b c d) := by
  have hlen := congrArg List.length h
  simp only [List.length_drop, List.length_cons] at hlen
  simp [wordAt?, slice?_eq_some (by omega : offset + 4 ≤ data.length), h, word?]

/-- The walk behind a whole chunk header: both words are read, and so is what is left behind them. -/
theorem sliceWalk_header {rest : Bytes} {offset index : Nat} {a b c d e f g h : UInt8}
    (hdata : data.drop offset = a :: b :: c :: d :: e :: f :: g :: h :: rest) :
    sliceWalk data offset index =
      if rest.length < (ofOctets e f g h).toNat then
        some ([], some (.chunkPayload index ⟨ofOctets a b c d⟩ (ofOctets e f g h).toNat rest.length))
      else
        (sliceWalk data (offset + chunkHeaderSize + (ofOctets e f g h).toNat) (index + 1)).map
          fun (chunks, stop) =>
            (⟨⟨ofOctets a b c d⟩, rest.take (ofOctets e f g h).toNat⟩ :: chunks, stop) := by
  have hlen := congrArg List.length hdata
  simp only [List.length_drop, List.length_cons] at hlen
  have htag := wordAt?_eq_some hdata
  have hlater : data.drop (offset + 4) = e :: f :: g :: h :: rest := by
    rw [← List.drop_drop, hdata]; rfl
  have hneeded := wordAt?_eq_some hlater
  have hrest : data.drop (offset + chunkHeaderSize) = rest := by
    rw [← List.drop_drop, hdata]; rfl
  have hleft : data.length - (offset + chunkHeaderSize) = rest.length := by
    rw [← hrest, List.length_drop]
  rw [sliceWalk, if_neg (by omega), if_neg (by simp only [chunkHeaderSize]; omega)]
  simp only [htag, hneeded, Option.bind_eq_bind, Option.bind_some, hleft]
  split
  · rfl
  · rename_i hge
    have hfits : offset + chunkHeaderSize + (ofOctets e f g h).toNat ≤ data.length := by
      simp only [chunkHeaderSize] at hleft ⊢; omega
    rw [slice?_eq_some hfits, hrest]
    simp only [Option.bind_some, Option.map_eq_bind]
    rfl

theorem exists_cons_of_header_le {s : Bytes} (h : chunkHeaderSize ≤ s.length) :
    ∃ a b c d e f g h' rest, s = a :: b :: c :: d :: e :: f :: g :: h' :: rest := by
  simp only [chunkHeaderSize] at h
  match s, h with
  | a :: b :: c :: d :: e :: f :: g :: h' :: rest, _ => exact ⟨a, b, c, d, e, f, g, h', rest, rfl⟩

theorem sliceWalk_eq (data : Bytes) (offset index : Nat) (s : Bytes) :
    data.drop offset = s → sliceWalk data offset index = some (chunksFrom offset index s) := by
  fun_induction chunksFrom offset index s with
  | case1 offset index =>
    intro h
    rw [sliceWalk, if_pos (List.drop_eq_nil_iff.1 h)]
  | case2 offset index a b c d e f g h' rest tag needed hlt =>
    intro h
    rw [sliceWalk_header h, if_pos hlt]
  | case3 offset index a b c d e f g h' rest tag needed hlt chunks stop heq ih =>
    intro h
    have hnext : data.drop (offset + chunkHeaderSize + needed) = rest.drop needed := by
      rw [← List.drop_drop, ← List.drop_drop, h]; rfl
    rw [sliceWalk_header h, if_neg hlt, ih hnext, heq]
    rfl
  | case4 offset index s hnil hcons =>
    intro h
    subst h
    have hpos : offset < data.length := by
      rcases Nat.lt_or_ge offset data.length with hlt | hge
      · exact hlt
      · exact absurd (List.drop_eq_nil_iff.2 hge) (by simpa using hnil)
    have hshort : data.length - offset < chunkHeaderSize := by
      rcases Nat.lt_or_ge (data.length - offset) chunkHeaderSize with hlt | hge
      · exact hlt
      · obtain ⟨a, b, c, d, e, f, g, h', rest, hs⟩ :=
          exists_cons_of_header_le (s := data.drop offset) (by rw [List.length_drop]; exact hge)
        exact absurd hs (hcons a b c d e f g h' rest)
    rw [sliceWalk, if_neg (by omega), if_pos hshort]

/-! ## What an artifact is -/

/-- `data` holds the chunks in a frame of the dialect, the first JSON chunk reads as `md`, and the stages of `md`
match the binary chunks. -/
structure Container (data : Bytes) (dialect : Dialect) (chunks : List Chunk) (md : Metadata) : Prop where
  assembled : assemble dialect chunks = .ok data
  metadata : ∃ front text back, chunks = front ++ ⟨.json, text⟩ :: back ∧
    (∀ c ∈ front, c.tag ≠ .json) ∧ Metadata.ofText text = .ok md
  stages : checkBuffers md.stageTable (chunks.countP (·.tag = .binary)) = .ok ()

theorem binaries_length (chunks : List Chunk) :
    (binaries chunks).length = chunks.countP (·.tag = .binary) := by
  rw [binaries, List.length_map, List.countP_eq_length_filter]

theorem metadataText?_eq_some_iff {text : Bytes} :
    metadataText? chunks = some text ↔
      ∃ front back, chunks = front ++ ⟨.json, text⟩ :: back ∧ ∀ c ∈ front, c.tag ≠ .json := by
  unfold metadataText?
  constructor
  · intro h
    obtain ⟨c, hc, rfl⟩ := Option.map_eq_some_iff.1 h
    obtain ⟨htag, front, back, rfl, hfront⟩ := List.find?_eq_some_iff_append.1 hc
    refine ⟨front, back, ?_, fun d hd => by simpa using hfront d hd⟩
    rw [show (⟨.json, c.payload⟩ : Chunk) = c by cases c; simp_all]
  · rintro ⟨front, back, rfl, hfront⟩
    rw [Option.map_eq_some_iff]
    refine ⟨⟨.json, text⟩, List.find?_eq_some_iff_append.2 ⟨by simp, front, back, rfl, ?_⟩, rfl⟩
    intro d hd
    simpa using hfront d hd

theorem decode_of_assemble (h : assemble dialect chunks = .ok data) :
    decode data = decodeBody data.length dialect (chunks, none) := by
  have hpayload := payload_lt_of_assemble h
  obtain ⟨rfl, hlt⟩ := assemble_eq_ok_iff.1 h
  rw [frame_length] at hlt ⊢
  rw [decode_frame hlt, chunksFrom_flatMap chunks _ _ hpayload]

theorem assemble_of_decode {f : File} (h : decode data = .ok f) :
    assemble f.dialect f.chunks = .ok data := by
  obtain ⟨dialect, body, rfl, hlt⟩ := frame_of_decode h
  have hbody := hlt
  rw [frame_length] at hbody
  rw [decode_frame hbody] at h
  cases hcut : chunksFrom headerSize 0 body with
  | mk chunks stop =>
    rw [hcut, decodeBody_eq_ok_iff] at h
    obtain ⟨rfl, _, _, _, rfl, _, rfl⟩ := h
    rw [assemble_eq_ok_iff, flatMap_of_chunksFrom _ _ _ _ hcut]
    exact ⟨rfl, hlt⟩

theorem decode_eq_ok_iff {f : File} :
    decode data = .ok f ↔
      Container data f.dialect f.chunks f.metadata ∧ f.bytecode = binaries f.chunks ∧
        f.size = UInt32.ofNat data.length := by
  constructor
  · intro h
    have hassemble := assemble_of_decode h
    rw [decode_of_assemble hassemble, decodeBody_eq_ok_iff] at h
    obtain ⟨_, ⟨text, htext, hmd⟩, hcheck, hsize, _, hcode, _⟩ := h
    obtain ⟨front, back, hchunks, hfront⟩ := metadataText?_eq_some_iff.1 htext
    rw [binaries_length] at hcheck
    exact ⟨⟨hassemble, ⟨front, text, back, hchunks, hfront, hmd⟩, hcheck⟩, hcode, hsize⟩
  · rintro ⟨⟨hassemble, ⟨front, text, back, hchunks, hfront, hmd⟩, hcheck⟩, hcode, hsize⟩
    rw [decode_of_assemble hassemble, decodeBody_eq_ok_iff, binaries_length]
    exact ⟨rfl, ⟨text, metadataText?_eq_some_iff.2 ⟨front, back, hchunks, hfront⟩, hmd⟩, hcheck,
      hsize, rfl, hcode, rfl⟩

/-- `decode` accepts exactly the containers. Dialect and chunks are unique, so assembling what was decoded gives the
octets back; and the cut by offsets, with every slice checked, goes through for any data. -/
theorem decode_accepts_exactly_containers (data : Bytes) :
    ((∃ f, decode data = .ok f) ↔ ∃ dialect chunks md, Container data dialect chunks md) ∧
    (∀ f, decode data = .ok f →
      Container data f.dialect f.chunks f.metadata ∧
      (∀ dialect chunks, assemble dialect chunks = .ok data →
        dialect = f.dialect ∧ chunks = f.chunks) ∧
      f.bytecode = binaries f.chunks ∧ f.size.toNat = data.length) ∧
    sliceWalk data headerSize 0 = some (chunksFrom headerSize 0 (data.drop headerSize)) := by
  refine ⟨⟨?_, ?_⟩, ?_, sliceWalk_eq data headerSize 0 _ rfl⟩
  · rintro ⟨f, hf⟩
    exact ⟨f.dialect, f.chunks, f.metadata, (decode_eq_ok_iff.1 hf).1⟩
  · rintro ⟨dialect, chunks, md, hc⟩
    exact ⟨⟨UInt32.ofNat data.length, dialect, md, binaries chunks, chunks⟩,
      decode_eq_ok_iff.2 ⟨hc, rfl, rfl⟩⟩
  · intro f hf
    obtain ⟨hc, hcode, hsize⟩ := decode_eq_ok_iff.1 hf
    refine ⟨hc, ?_, hcode, ?_⟩
    · intro dialect chunks h
      rw [decode_of_assemble h, decodeBody_eq_ok_iff] at hf
      obtain ⟨_, _, _, _, hdialect, _, hchunks⟩ := hf
      exact ⟨hdialect.symm, hchunks.symm⟩
    · have hlt := (assemble_eq_ok_iff.1 hc.assembled).2
      rw [hsize, toNat_ofNat_length hlt]

end Artifact
end ShaderForge
