import Mathlib
import ShaderForge.Pipeline.Compile
import ShaderForge.Proofs.Text.Margins

/-!
# ShaderForge.Proofs.Pipeline.Remapping

Positions in what a tool prints are put back to the lines of the sources in one pass, octet for octet.

* `Cited`     — a position at the front of a text: the path, a colon and as many digits as follow.
* `Rewrites`  — the text with each leftmost position replaced, if its line is in the map, and all else kept.
* `Rewrites.unique` — there is one such text.
* `exists_rewrites_remapFrom` — the pass ends with it, unless the path holds U+FFFD and the text a stray octet.
* `remap_exact`     — nothing else of an error changes.
* `remap_strays`    — a stray octet passes for U+FFFD, and the number is read from the wrong place.
-/

namespace ShaderForge

/-! ## Texts and their glyphs -/

namespace Utf8

theorem glyphs_of_isValid {s : Bytes} (h : isValid s = true) : glyphs s = (characters s).map .scalar := by
  conv_lhs => rw [← characters_flatMap_encode h, glyphs_flatMap_encode]

theorem not_isContinuation_of_isValid {b : UInt8} {s : Bytes} (h : isValid (b :: s) = true) :
    isContinuation b = false := by
  by_contra hb
  have hstray := glyphs_stray (front?_continuation (Bool.eq_true_of_not_eq_false hb) s)
  rw [isValid, hstray] at h
  cases h

end Utf8

namespace Bytes

theorem isAscii_of_isDigit {s : Bytes} (h : ∀ b ∈ s, isDigit b = true) : IsAscii s := fun b hb =>
  forall_octet (P := fun b => isDigit b = true → b.toNat < 0x80) (by decide +kernel) b (h b hb)

theorem isDigit_asciiGlyph (b : UInt8) : b.toNat < 0x80 → (asciiGlyph b).isDigit = isDigit b :=
  forall_octet (P := fun b => b.toNat < 0x80 → (asciiGlyph b).isDigit = isDigit b) (by decide +kernel) b

end Bytes

namespace Glyph

theorem exists_octet_of_isDigit {g : Glyph} (h : g.isDigit = true) :
    ∃ b, Bytes.isDigit b = true ∧ g = asciiGlyph b := by
  cases g with
  | stray b => cases h
  | scalar c =>
    have hrange : c.val.toNat < 0x80 := by
      simp only [isDigit, Char.isDigit, Bool.and_eq_true, decide_eq_true_eq, UInt32.le_iff_toNat_le] at h
      have hnine : '9'.val.toNat = 57 := rfl
      omega
    have hoctet : (UInt8.ofNat c.val.toNat).toNat = c.val.toNat := Utf8.toNat_ofNat_lt (by omega)
    have hglyph : Glyph.scalar c = asciiGlyph (UInt8.ofNat c.val.toNat) := by
      rw [asciiGlyph, hoctet]
      exact congrArg _ (Char.ofNat_toNat c).symm
    refine ⟨UInt8.ofNat c.val.toNat, ?_, hglyph⟩
    rw [← Bytes.isDigit_asciiGlyph _ (by omega), ← hglyph]
    exact h

theorem behind?_eq_some {cs : List Char} {gs rest : List Glyph} :
    behind? cs gs = some rest ↔ ∃ lead, gs = lead ++ rest ∧ lead.map shown = cs := by
  induction cs generalizing gs with
  | nil => simp [behind?, eq_comm]
  | cons c cs ih =>
    cases gs with
    | nil => simp [behind?]
    | cons g gs =>
      rw [behind?]
      constructor
      · intro h
        split at h
        · next hg =>
          obtain ⟨lead, rfl, rfl⟩ := ih.1 h
          exact ⟨g :: lead, rfl, by rw [List.map_cons, hg]⟩
        · cases h
      · rintro ⟨lead, hlead, hshown⟩
        cases lead with
        | nil => cases hshown
        | cons g' lead =>
          cases hlead
          cases hshown
          rw [if_pos rfl]
          exact ih.2 ⟨lead, rfl, rfl⟩

/-- Glyphs that are shown as certain characters are those characters, if none of them is a stray octet in the place
of U+FFFD. -/
theorem eq_map_scalar {cs : List Char} {lead : List Glyph} (h : lead.map shown = cs)
    (hstray : Utf8.replacement ∈ cs → ∀ g ∈ lead, g.isScalar = true) : lead = cs.map .scalar := by
  subst h
  rw [List.map_map]
  refine (List.map_id' lead).symm.trans (List.map_congr_left fun g hg => ?_)
  cases g with
  | scalar c => rfl
  | stray b => cases hstray (List.mem_map.2 ⟨_, hg, rfl⟩) _ hg

end Glyph

namespace Utf8

theorem isDigit_of_glyphs {s : Bytes} {g : Glyph} {gs : List Glyph} (h : glyphs s = g :: gs)
    (hg : g.isDigit = true) : ∃ b rest, s = b :: rest ∧ Bytes.isDigit b = true := by
  obtain ⟨b, hb, rfl⟩ := Glyph.exists_octet_of_isDigit hg
  obtain ⟨rest, hs, -⟩ := eq_append_of_glyphs h
  rw [bytes_asciiGlyph b (Bytes.isAscii_of_isDigit (s := [b]) (by simpa using hb) b List.mem_cons_self)] at hs
  exact ⟨b, rest, hs, hb⟩

end Utf8

/-! ## Positions -/

/-- The text begins with a position: the path, a colon and as many digits as follow, of which there is one at least. -/
structure Cited (merged : Path) (digits rest s : Bytes) : Prop where
  text : s = merged ++ ":" ++ (digits ++ rest)
  nonempty : digits ≠ []
  numeric : ∀ b ∈ digits, Bytes.isDigit b = true
  maximal : ∀ b ∈ rest.head?, Bytes.isDigit b = false

namespace Cited

variable {merged : Path} {digits rest s : Bytes}

theorem eq_takeWhile (h : Cited merged digits rest s) {t : Bytes} (ht : s = merged ++ ":" ++ t) :
    digits = t.takeWhile Bytes.isDigit ∧ rest = t.dropWhile Bytes.isDigit := by
  have hsame : t = digits ++ rest := List.append_cancel_left (ht.symm.trans h.text)
  rw [hsame]
  cases hrest : rest with
  | nil =>
    rw [List.append_nil, List.takeWhile_eq_self_iff.2 h.numeric, List.dropWhile_eq_nil_iff.2 h.numeric]
    exact ⟨rfl, rfl⟩
  | cons b rest' =>
    have hb : Bytes.isDigit b = false := h.maximal b (by simp [hrest])
    rw [List.takeWhile_append_of_pos h.numeric, List.dropWhile_append_of_pos h.numeric,
      List.takeWhile_cons_of_neg (by simp [hb]), List.dropWhile_cons_of_neg (by simp [hb]), List.append_nil]
    exact ⟨rfl, rfl⟩

theorem unique {digits' rest' : Bytes} (h : Cited merged digits rest s) (h' : Cited merged digits' rest' s) :
    digits = digits' ∧ rest = rest' := by
  obtain ⟨hdigits, hrest⟩ := h.eq_takeWhile h'.text
  obtain ⟨hdigits', hrest'⟩ := h'.eq_takeWhile h'.text
  exact ⟨hdigits.trans hdigits'.symm, hrest.trans hrest'.symm⟩

end Cited

theorem exists_cited {merged : Path} {b : UInt8} {t : Bytes} (hb : Bytes.isDigit b = true) :
    ∃ digits rest, Cited merged digits rest (merged ++ ":" ++ b :: t) := by
  refine ⟨(b :: t).takeWhile Bytes.isDigit, (b :: t).dropWhile Bytes.isDigit, ?_, ?_, ?_, ?_⟩
  · rw [List.takeWhile_append_dropWhile]
  · rw [List.takeWhile_cons_of_pos hb]
    exact List.cons_ne_nil _ _
  · exact List.all_eq_true.1 List.all_takeWhile
  · intro c hc
    have hnot := List.head?_dropWhile_not Bytes.isDigit (b :: t)
    rw [Option.mem_def.1 hc] at hnot
    simpa using hnot

def positionFront (merged : Path) : List Char := Utf8.characters (merged ++ ":")

section Positions

variable {merged : Path} (hvalid : Utf8.isValid merged = true)
include hvalid

theorem isValid_front : Utf8.isValid (merged ++ ":") = true := Utf8.isValid_append hvalid (by decide +kernel)

theorem glyphs_front (t : Bytes) :
    Utf8.glyphs (merged ++ ":" ++ t) = (positionFront merged).map .scalar ++ Utf8.glyphs t := by
  rw [Utf8.glyphs_append (isValid_front hvalid), Utf8.glyphs_of_isValid (isValid_front hvalid)]
  rfl

theorem concat_front : Glyph.concat ((positionFront merged).map .scalar) = merged ++ ":" := by
  rw [positionFront, ← Utf8.glyphs_of_isValid (isValid_front hvalid), Utf8.concat_glyphs]

theorem replacement_of_mem_front (h : Utf8.replacement ∈ positionFront merged) :
    Utf8.replacement ∈ Utf8.characters merged := by
  rw [positionFront, Utf8.characters, Utf8.glyphs_append hvalid, List.map_append, List.mem_append] at h
  exact h.resolve_right (by decide +kernel)

theorem Cited.glyphs_eq {digits rest s : Bytes} (h : Cited merged digits rest s) :
    Utf8.glyphs s = (positionFront merged).map .scalar ++ digits.map asciiGlyph ++ Utf8.glyphs rest := by
  have hascii := Bytes.isAscii_of_isDigit h.numeric
  rw [h.text, glyphs_front hvalid, Utf8.glyphs_append (Utf8.isValid_of_ascii hascii), glyphs_ascii hascii,
    List.append_assoc]

theorem Cited.position?_eq {digits rest s : Bytes} (h : Cited merged digits rest s) :
    position? merged (Utf8.glyphs s) = some ((positionFront merged).length + digits.length) := by
  have hbehind : Glyph.behind? (positionFront merged) (Utf8.glyphs s) =
      some (digits.map asciiGlyph ++ Utf8.glyphs rest) :=
    Glyph.behind?_eq_some.2
      ⟨_, (h.glyphs_eq hvalid).trans (List.append_assoc _ _ _), List.map_map.trans (List.map_id _)⟩
  have hdigits : ∀ g ∈ digits.map asciiGlyph, g.isDigit = true := by
    intro g hg
    obtain ⟨b, hb, rfl⟩ := List.mem_map.1 hg
    rw [Bytes.isDigit_asciiGlyph b (Bytes.isAscii_of_isDigit h.numeric b hb)]
    exact h.numeric b hb
  have hrest : (Utf8.glyphs rest).takeWhile Glyph.isDigit = [] := by
    cases hglyphs : Utf8.glyphs rest with
    | nil => rfl
    | cons g gs =>
      refine List.takeWhile_cons_of_neg fun hg => ?_
      obtain ⟨b, t, ht, hb⟩ := Utf8.isDigit_of_glyphs hglyphs hg
      have hnot := h.maximal b (by simp [ht])
      rw [hb] at hnot
      cases hnot
  have hempty : (digits.map asciiGlyph).isEmpty = false := by simpa using h.nonempty
  rw [position?, ← Utf8.characters, ← positionFront, hbehind]
  simp only [Option.bind_eq_bind, Option.bind_some, List.takeWhile_append_of_pos hdigits, hrest, List.append_nil,
    hempty, List.length_map, Bool.false_eq_true, if_false]

/-- Only a position is taken for one, if no stray octet passes for a character of the path. -/
theorem exists_cited_of_position? {s : Bytes} {width : Nat}
    (hstray : Utf8.replacement ∈ Utf8.characters merged → Utf8.isValid s = true)
    (h : position? merged (Utf8.glyphs s) = some width) : ∃ digits rest, Cited merged digits rest s := by
  rw [position?, ← Utf8.characters, ← positionFront] at h
  obtain ⟨rest, hbehind, hwidth⟩ := Option.bind_eq_some_iff.1 h
  obtain ⟨lead, hglyphs, hshown⟩ := Glyph.behind?_eq_some.1 hbehind
  have hlead : lead = (positionFront merged).map .scalar := by
    refine Glyph.eq_map_scalar hshown fun hmem g hg => ?_
    refine List.all_eq_true.1 (hstray (replacement_of_mem_front hvalid hmem)) g ?_
    rw [hglyphs]
    exact List.mem_append_left rest hg
  have hs : s = merged ++ ":" ++ Glyph.concat rest := by
    rw [← concat_front hvalid, ← hlead, ← Glyph.concat_append, ← hglyphs, Utf8.concat_glyphs]
  cases rest with
  | nil => cases hwidth
  | cons g gs =>
    cases hg : g.isDigit with
    | false => simp [List.takeWhile, hg] at hwidth
    | true =>
      obtain ⟨b, t, ht, hb⟩ := Utf8.isDigit_of_glyphs (Utf8.glyphs_concat hglyphs) hg
      rw [hs, ht]
      exact exists_cited hb

end Positions

/-! ## One pass -/

section Pass

variable {merged : Path} {map : SourceMap}

theorem remapFrom_eq_drop (skip : Nat) (gs : List Glyph) :
    remapFrom merged map skip gs = remapFrom merged map 0 (gs.drop skip) := by
  induction gs generalizing skip with
  | nil => cases skip <;> simp [remapFrom]
  | cons g gs ih =>
    cases skip with
    | zero => rfl
    | succ skip => rw [remapFrom, ih, List.drop_succ_cons]

theorem remapFrom_of_none {g : Glyph} {gs : List Glyph} {t : Bytes} (h : position? merged (g :: gs) = none)
    (hrest : remapFrom merged map 0 gs = some t) : remapFrom merged map 0 (g :: gs) = some (g.bytes ++ t) := by
  rw [remapFrom, h]
  dsimp only
  rw [hrest]
  rfl

theorem remapFrom_of_some {front back : List Glyph} {line : Nat} {t : Bytes} (hne : front ≠ [])
    (h : position? merged (front ++ back) = some front.length)
    (hline : positionLine? merged (Glyph.concat front) = some line) (hrest : remapFrom merged map 0 back = some t) :
    remapFrom merged map 0 (front ++ back) = some (originText map line (Glyph.concat front) ++ t) := by
  obtain ⟨g, front', rfl⟩ := List.exists_cons_of_ne_nil hne
  rw [List.cons_append, remapFrom, ← List.cons_append, h]
  dsimp only
  rw [List.take_left, hline, remapFrom_eq_drop, List.length_cons, Nat.add_sub_cancel, List.drop_left, hrest]
  rfl

theorem positionLine?_cited (digits : Bytes) :
    positionLine? merged (merged ++ ":" ++ digits) = some (Bytes.digitsValue digits) := by
  have hwidth : merged.length + 1 = (merged ++ utf8 ":").length := by rw [List.length_append]; rfl
  have hlong : ¬ (merged ++ utf8 ":" ++ digits).length ≤ merged.length := by
    rw [List.length_append, ← hwidth]
    omega
  rw [positionLine?, if_neg hlong, hwidth, List.drop_left]

theorem remapFrom_of_cited (hvalid : Utf8.isValid merged = true) {digits rest s t : Bytes}
    (h : Cited merged digits rest s) (hrest : remapFrom merged map 0 (Utf8.glyphs rest) = some t) :
    remapFrom merged map 0 (Utf8.glyphs s) =
      some (originText map (Bytes.digitsValue digits) (merged ++ ":" ++ digits) ++ t) := by
  have hconcat : Glyph.concat ((positionFront merged).map .scalar ++ digits.map asciiGlyph) =
      merged ++ ":" ++ digits := by
    rw [Glyph.concat_append, concat_front hvalid, concat_asciiGlyph (Bytes.isAscii_of_isDigit h.numeric)]
  have hposition := h.position?_eq hvalid
  rw [h.glyphs_eq hvalid] at hposition ⊢
  rw [remapFrom_of_some (by simpa using fun _ => h.nonempty) (hposition.trans (by simp))
    (hconcat ▸ positionLine?_cited digits) hrest, hconcat]

theorem lookup?_of_range {n : Nat} (h : 1 ≤ n ∧ n ≤ map.size) :
    ∃ place, map.lookup? n = some place ∧ map.lines[n - 1]? = some place := by
  have hlt : n - 1 < map.lines.length := by have := h.2; rw [SourceMap.size] at this; omega
  refine ⟨map.lines[n - 1], ?_, List.getElem?_eq_getElem hlt⟩
  rw [SourceMap.lookup?, if_neg (by omega), Int.toNat_natCast, List.getElem?_eq_getElem hlt]

theorem lookup?_out_of_range {n : Nat} (h : ¬ (1 ≤ n ∧ n ≤ map.size)) : map.lookup? n = none := by
  rw [SourceMap.lookup?]
  split
  · rfl
  · rw [SourceMap.size] at h
    rw [Int.toNat_natCast, List.getElem?_eq_none_iff]
    omega

end Pass

/-- `t` is `s` with each leftmost position replaced by the line's origin, if the map has the line. All other octets are
kept, in their order. What a replacement puts in is not looked at again. -/
inductive Rewrites (merged : Path) (map : SourceMap) : Bytes → Bytes → Prop
  | done : Rewrites merged map [] []
  | kept {b : UInt8} {s t : Bytes} (hnone : ∀ digits rest, ¬ Cited merged digits rest (b :: s))
      (hrest : Rewrites merged map s t) : Rewrites merged map (b :: s) (b :: t)
  | replaced {digits rest s t : Bytes} {place : Location} (hcited : Cited merged digits rest s)
      (hline : 1 ≤ Bytes.digitsValue digits ∧ Bytes.digitsValue digits ≤ map.size)
      (hplace : map.lines[Bytes.digitsValue digits - 1]? = some place) (hrest : Rewrites merged map rest t) :
      Rewrites merged map s (place.file ++ ":" ++ Bytes.ofNat place.line ++ t)
  | outside {digits rest s t : Bytes} (hcited : Cited merged digits rest s)
      (hline : ¬ (1 ≤ Bytes.digitsValue digits ∧ Bytes.digitsValue digits ≤ map.size))
      (hrest : Rewrites merged map rest t) : Rewrites merged map s (merged ++ ":" ++ digits ++ t)

section Rewriting

variable {merged : Path} {map : SourceMap}

theorem Cited.not_nil {digits rest : Bytes} (h : Cited merged digits rest []) : False := by
  simpa [h.nonempty] using h.text

theorem Rewrites.unique {s t t' : Bytes} (h : Rewrites merged map s t) (h' : Rewrites merged map s t') : t = t' := by
  induction h generalizing t' with
  | done =>
    cases h' with
    | done => rfl
    | replaced hcited | outside hcited => exact hcited.not_nil.elim
  | kept hnone _ ih =>
    cases h' with
    | kept _ hrest => rw [ih hrest]
    | replaced hcited | outside hcited => exact absurd hcited (hnone _ _)
  | replaced hcited hline hplace _ ih =>
    cases h' with
    | done => exact hcited.not_nil.elim
    | kept hnone _ => exact absurd hcited (hnone _ _)
    | replaced hcited' _ hplace' hrest =>
      obtain ⟨rfl, rfl⟩ := hcited.unique hcited'
      rw [hplace] at hplace'
      cases hplace'
      rw [ih hrest]
    | outside hcited' hline' =>
      obtain ⟨rfl, rfl⟩ := hcited.unique hcited'
      exact absurd hline hline'
  | outside hcited hline _ ih =>
    cases h' with
    | done => exact hcited.not_nil.elim
    | kept hnone _ => exact absurd hcited (hnone _ _)
    | replaced hcited' hline' =>
      obtain ⟨rfl, rfl⟩ := hcited.unique hcited'
      exact absurd hline' hline
    | outside hcited' _ hrest =>
      obtain ⟨rfl, rfl⟩ := hcited.unique hcited'
      rw [ih hrest]

theorem Rewrites.cited {digits rest s t : Bytes} (hcited : Cited merged digits rest s)
    (hrest : Rewrites merged map rest t) :
    Rewrites merged map s (originText map (Bytes.digitsValue digits) (merged ++ ":" ++ digits) ++ t) := by
  by_cases hline : 1 ≤ Bytes.digitsValue digits ∧ Bytes.digitsValue digits ≤ map.size
  · obtain ⟨place, hlookup, hplace⟩ := lookup?_of_range hline
    rw [originText, hlookup]
    exact .replaced hcited hline hplace hrest
  · rw [originText, lookup?_out_of_range hline]
    exact .outside hcited hline hrest

theorem Rewrites.continued (hvalid : Utf8.isValid merged = true) {q s t : Bytes}
    (hq : ∀ b ∈ q, Utf8.isContinuation b = true) (h : Rewrites merged map s t) :
    Rewrites merged map (q ++ s) (q ++ t) := by
  induction q with
  | nil => exact h
  | cons b q ih =>
    refine .kept (fun digits rest hcited => ?_) (ih fun c hc => hq c (List.mem_cons_of_mem b hc))
    obtain ⟨b', front, hfront⟩ := List.exists_cons_of_ne_nil
      (List.append_ne_nil_of_right_ne_nil merged (show utf8 ":" ≠ [] by decide))
    have htext := hcited.text
    rw [hfront, List.cons_append] at htext
    obtain ⟨rfl, -⟩ := List.cons.inj htext
    have hnot := Utf8.not_isContinuation_of_isValid (hfront ▸ isValid_front hvalid)
    rw [hq b List.mem_cons_self] at hnot
    cases hnot

theorem Rewrites.glyph (hvalid : Utf8.isValid merged = true) {g : Glyph} {s t : Bytes}
    (hnone : ∀ digits rest, ¬ Cited merged digits rest (g.bytes ++ s)) (h : Rewrites merged map s t) :
    Rewrites merged map (g.bytes ++ s) (g.bytes ++ t) := by
  cases g with
  | stray b => exact .kept hnone h
  | scalar c =>
    obtain ⟨b, q, hq⟩ := List.exists_cons_of_ne_nil (Utf8.encode_ne_nil c)
    have htail := Utf8.isContinuation_of_mem_tail (c := c)
    simp only [Glyph.bytes, hq, List.cons_append, List.tail_cons] at hnone htail ⊢
    exact .kept hnone (h.continued hvalid htail)

/-- The pass goes through, and rewrites exactly the positions. -/
theorem exists_rewrites_remapFrom (map : SourceMap) (hvalid : Utf8.isValid merged = true) (s : Bytes)
    (hstray : Utf8.replacement ∈ Utf8.characters merged → Utf8.isValid s = true) :
    ∃ t, remapFrom merged map 0 (Utf8.glyphs s) = some t ∧ Rewrites merged map s t := by
  -- the induction is on the glyphs, since a position takes away as many as it is wide
  induction hn : (Utf8.glyphs s).length using Nat.strongRecOn generalizing s with
  | ind n ih =>
    have hsuffix : ∀ front rest, Utf8.glyphs s = front ++ Utf8.glyphs rest → front ≠ [] →
        ∃ t, remapFrom merged map 0 (Utf8.glyphs rest) = some t ∧ Rewrites merged map rest t := by
      intro front rest hglyphs hne
      refine ih _ ?_ rest (fun hmem => ?_) rfl
      · have := List.length_pos_iff.2 hne
        rw [← hn, hglyphs, List.length_append]
        omega
      · have hall := hstray hmem
        rw [Utf8.isValid, hglyphs, List.all_append, Bool.and_eq_true] at hall
        exact hall.2
    by_cases hcites : ∃ digits rest, Cited merged digits rest s
    · obtain ⟨digits, rest, hcited⟩ := hcites
      obtain ⟨t, hpass, hrewrites⟩ :=
        hsuffix _ rest (hcited.glyphs_eq hvalid) (by simpa using fun _ => hcited.nonempty)
      exact ⟨_, remapFrom_of_cited hvalid hcited hpass, .cited hcited hrewrites⟩
    · cases hglyphs : Utf8.glyphs s with
      | nil =>
        have hs : s = [] := by rw [← Utf8.concat_glyphs s, hglyphs]; rfl
        rw [hs]
        exact ⟨[], rfl, .done⟩
      | cons g gs =>
        have hposition : position? merged (g :: gs) = none := by
          refine Option.eq_none_iff_forall_ne_some.2 fun width hsome => hcites ?_
          exact exists_cited_of_position? hvalid hstray (hglyphs ▸ hsome)
        obtain ⟨rest, hs, rfl⟩ := Utf8.eq_append_of_glyphs hglyphs
        obtain ⟨t, hpass, hrewrites⟩ := hsuffix [g] rest hglyphs (List.cons_ne_nil g [])
        rw [hs] at hcites ⊢
        exact ⟨_, remapFrom_of_none hposition hpass,
          .glyph hvalid (fun digits rest hcited => hcites ⟨digits, rest, hcited⟩) hrewrites⟩

theorem Rewrites.eq_of_size (hsize : map.size = 0) {s t : Bytes} (h : Rewrites merged map s t) : t = s := by
  induction h with
  | done => rfl
  | kept _ _ ih => rw [ih]
  | replaced _ hline => omega
  | outside hcited _ _ ih => rw [ih, hcited.text, List.append_assoc]

theorem Rewrites.of_not_mem {b : UInt8} {s : Bytes} (h : b ∉ s) : Rewrites (b :: merged) map s s := by
  induction s with
  | nil => exact .done
  | cons c s ih =>
    refine .kept (fun digits rest hcited => ?_) (ih fun hs => h (List.mem_cons_of_mem c hs))
    have hfirst : c = b := (List.cons.inj hcited.text).1
    exact h (hfirst ▸ List.mem_cons_self)

end Rewriting

/-! ## Errors -/

def StageError.cause : StageError → CompileCause
  | .target fault => .target fault
  | .tool error => .tool error

/-- Of a failed call only what the tool printed changes, and of that exactly the positions, unless the path holds U+FFFD
and the text a stray octet. Any other error stays as it is. -/
theorem remap_exact {merged : Path} (hvalid : Utf8.isValid merged = true) (map : SourceMap) :
    (∀ error : ToolError, (Utf8.replacement ∈ Utf8.characters merged → Utf8.isValid error.output = true) →
      ∃ text, remapStageError merged map (.tool error) = .tool { error with output := text } ∧
        (∀ t, Rewrites merged map error.output t ↔ t = text) ∧
        (remapStageError merged map (.tool error)).kind = (CompileCause.tool error).kind) ∧
    ∀ e : StageError, (∀ error, e ≠ .tool error) → remapStageError merged map e = e.cause := by
  refine ⟨fun error hstray => ?_, fun e he => ?_⟩
  · obtain ⟨text, hpass, hrewrites⟩ := exists_rewrites_remapFrom map hvalid error.output hstray
    have hrun : remapStageError merged map (.tool error) = .tool { error with output := text } := by
      rw [remapStageError]
      split
      · next hskip =>
        have hsame : text = error.output := by
          rcases (by simpa using hskip : error.output = [] ∨ map.size = 0) with hempty | hsize
          · exact hrewrites.unique (hempty ▸ .done)
          · exact hrewrites.eq_of_size hsize
        rw [hsame]
      · rw [remapText?, if_pos hvalid, hpass]
    refine ⟨text, hrun, fun t => ⟨fun h => h.unique hrewrites, fun h => h ▸ hrewrites⟩, ?_⟩
    rw [hrun]
    rfl
  · cases e with
    | target fault => rfl
    | tool error => exact absurd rfl (he error)

def failedWith (output : Bytes) : ToolError :=
  { tool := "dxc", profile := "vs_6_6", entry := "vs_main", exitCode := 1, output, cause := .run (.exit 1) }

/-- Two lines; the file of the second has a name that reads like a position. -/
def pairMap : SourceMap := ⟨[⟨"src/b.hlsl", 12⟩, ⟨"w/a.hlsl:1", 1⟩]⟩

/-- A stray octet, leading zeros, a replacement that reads like a position, line zero, a line behind the last and a
number of twenty digits. -/
def pairOutput : Bytes :=
  0xFF :: "w/a.hlsl:01: x\nw/a.hlsl:2w/a.hlsl:0 w/a.hlsl:3 w/a.hlsl:w/a.hlsl:1 w/a.hlsl:99999999999999999999"

def pairRemapped : Bytes :=
  0xFF :: "src/b.hlsl:12: x\nw/a.hlsl:1:1w/a.hlsl:0 w/a.hlsl:3 w/a.hlsl:src/b.hlsl:12 w/a.hlsl:99999999999999999999"

theorem remap_exact_pair :
    Utf8.isValid "w/a.hlsl" = true ∧ Utf8.replacement ∉ Utf8.characters "w/a.hlsl" ∧
      remapStageError "w/a.hlsl" pairMap (.tool (failedWith pairOutput)) = .tool (failedWith pairRemapped) ∧
      ∀ t, Rewrites "w/a.hlsl" pairMap pairOutput t ↔ t = pairRemapped := by
  have hvalid : Utf8.isValid "w/a.hlsl" = true := by decide +kernel
  have hplain : Utf8.replacement ∉ Utf8.characters "w/a.hlsl" := by decide +kernel
  have hrun : remapStageError "w/a.hlsl" pairMap (.tool (failedWith pairOutput)) =
      .tool (failedWith pairRemapped) := by decide +kernel
  refine ⟨hvalid, hplain, hrun, ?_⟩
  obtain ⟨text, htext, hexact, -⟩ := (remap_exact hvalid pairMap).1 (failedWith pairOutput) fun h => absurd h hplain
  rw [hrun] at htext
  have hsame : pairRemapped = text := congrArg ToolError.output (CompileCause.tool.inj htext)
  rw [hsame]
  exact hexact

/-- A stray octet passes for U+FFFD and is two octets shorter, so two digits of the number are lost. The text cites no
line of the path, yet a line that nobody named is put in its place; where there are no two digits, the program breaks
off. -/
theorem remap_strays :
    Utf8.isValid "\uFFFD" = true ∧
      remapStageError "\uFFFD" ⟨[⟨"a", 1⟩]⟩ (.tool (failedWith (0xFF :: ":991"))) = .tool (failedWith "a:1") ∧
      Rewrites "\uFFFD" ⟨[⟨"a", 1⟩]⟩ (0xFF :: ":991") (0xFF :: ":991") ∧
      ¬ Rewrites "\uFFFD" ⟨[⟨"a", 1⟩]⟩ (0xFF :: ":991") "a:1" ∧
      (remapStageError "\uFFFD" ⟨[⟨"a", 1⟩]⟩ (.tool (failedWith (0xFF :: ":1")))).breaksOff = true := by
  have hkept : Rewrites "\uFFFD" ⟨[⟨"a", 1⟩]⟩ (0xFF :: ":991") (0xFF :: ":991") :=
    show Rewrites (0xEF :: [0xBF, 0xBD]) _ _ _ from Rewrites.of_not_mem (by decide +kernel)
  refine ⟨by decide +kernel, by decide +kernel, hkept, fun h => ?_, by decide +kernel⟩
  exact absurd (h.unique hkept) (by decide +kernel)

end ShaderForge
