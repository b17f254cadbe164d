import ShaderForge.Proofs.Text.Blank

/-!
# ShaderForge.Proofs.Text.Margins

Blanks of any kind around a text, whatever octets it holds.

* `Bytes.IsBlank`      — texts of blank characters only.
* `isBlank_of_front?`  — no other character begins inside such a text.
* `exists_margins`     — a text is what trimming leaves of it, with blanks on both sides.
* `indexOf_trim`       — what trimming leaves is found behind the left margin, if it begins with a character.
-/

namespace ShaderForge

namespace Utf8

theorem isContinuation_of_mem_tail {c : Char} : ∀ b ∈ (encode c).tail, isContinuation b = true := by
  have hseq := sequence_encode c
  generalize encode c = q at hseq
  generalize c.val.toNat = v at hseq
  intro b hb
  rw [isContinuation_iff]
  cases hseq <;> simp at hb <;> grind

theorem front?_continuation {b : UInt8} (h : isContinuation b = true) (s : Bytes) : front? (b :: s) = none := by
  rw [isContinuation_iff] at h
  have hlead : ¬ b < 0x80 := by
    simp only [UInt8.lt_iff_toNat_lt, UInt8.reduceToNat]
    omega
  simp only [front?, if_neg hlead, expects_none (a := b) (.inl (by omega))]

theorem front?_append {s : Bytes} {c : Char} {w : Nat} (h : front? s = some (c, w)) (t : Bytes) :
    front? (s ++ t) = some (c, w) := by
  obtain ⟨rest, rfl, rfl⟩ := encode_of_front? h
  rw [List.append_assoc, front?_encode_append]

theorem glyphs_of_front? {s : Bytes} {c : Char} {w : Nat} (h : front? s = some (c, w)) :
    ∃ gs, glyphs s = .scalar c :: gs := by
  obtain ⟨rest, rfl, -⟩ := encode_of_front? h
  exact ⟨glyphs rest, glyphs_encode_append c rest⟩

theorem front?_ascii {b : UInt8} (h : b.toNat < 0x80) (s : Bytes) : front? (b :: s) = some (Char.ofNat b.toNat, 1) := by
  have hlead : b < 0x80 := by simpa only [UInt8.lt_iff_toNat_lt, UInt8.reduceToNat] using h
  simp only [front?, if_pos hlead]

theorem eq_append_of_glyphs {s : Bytes} {g : Glyph} {gs : List Glyph} (h : glyphs s = g :: gs) :
    ∃ rest, s = g.bytes ++ rest ∧ glyphs rest = gs := by
  cases s with
  | nil => cases h
  | cons b s =>
    cases hfront : front? (b :: s) with
    | none =>
      rw [glyphs_stray hfront] at h
      cases h
      exact ⟨s, rfl, rfl⟩
    | some found =>
      obtain ⟨rest, hs, -⟩ := encode_of_front? (c := found.1) (w := found.2) hfront
      rw [hs, glyphs_encode_append] at h
      cases h
      exact ⟨rest, hs, rfl⟩

theorem glyphs_concat {s : Bytes} {front back : List Glyph} (h : glyphs s = front ++ back) :
    glyphs (Glyph.concat back) = back := by
  induction front generalizing s with
  | nil =>
    rw [List.nil_append] at h
    rw [← h, concat_glyphs]
  | cons g front ih =>
    obtain ⟨rest, -, hrest⟩ := eq_append_of_glyphs h
    exact ih hrest

end Utf8

namespace Glyph

theorem bytes_ne_nil (g : Glyph) : g.bytes ≠ [] := by
  cases g with
  | scalar c => exact Utf8.encode_ne_nil c
  | stray b => exact List.cons_ne_nil b []

theorem concat_append (gs hs : List Glyph) : concat (gs ++ hs) = concat gs ++ concat hs := List.flatMap_append

end Glyph

namespace Bytes

/-- Every glyph of the text is blank. -/
def IsBlank (s : Bytes) : Prop := ∀ g ∈ Utf8.glyphs s, g.isBlank = true

theorem isBlank_nil : IsBlank [] := by
  intro g hg
  cases hg

theorem isBlank_iff {s : Bytes} :
    IsBlank s ↔ ∃ cs : List Char, (∀ c ∈ cs, ShaderForge.isBlank c = true) ∧ s = cs.flatMap Utf8.encode := by
  constructor
  · intro h
    have hvalid : Utf8.isValid s = true := by
      refine List.all_eq_true.2 fun g hg => ?_
      cases g with
      | scalar c => rfl
      | stray b => exact h _ hg
    obtain ⟨cs, rfl⟩ := Utf8.isValid_iff.1 hvalid
    refine ⟨cs, fun c hc => ?_, rfl⟩
    exact h (.scalar c) (by rw [Utf8.glyphs_flatMap_encode]; exact List.mem_map_of_mem hc)
  · rintro ⟨cs, hcs, rfl⟩ g hg
    rw [Utf8.glyphs_flatMap_encode] at hg
    obtain ⟨c, hc, rfl⟩ := List.mem_map.1 hg
    exact hcs c hc

theorem IsBlank.append {s t : Bytes} (hs : IsBlank s) (ht : IsBlank t) : IsBlank (s ++ t) := by
  obtain ⟨cs, hcs, rfl⟩ := isBlank_iff.1 hs
  obtain ⟨ds, hds, rfl⟩ := isBlank_iff.1 ht
  refine isBlank_iff.2 ⟨cs ++ ds, fun c hc => ?_, List.flatMap_append.symm⟩
  rcases List.mem_append.1 hc with hc | hc
  · exact hcs c hc
  · exact hds c hc

theorem isBlank_concat {gs : List Glyph} (h : ∀ g ∈ gs, g.isBlank = true) : IsBlank (Glyph.concat gs) := by
  induction gs with
  | nil => exact isBlank_nil
  | cons g gs ih =>
    have hg := h g List.mem_cons_self
    cases g with
    | stray b => cases hg
    | scalar c =>
      have hfirst : IsBlank (Utf8.encode c) := isBlank_iff.2 ⟨[c], by simpa [Glyph.isBlank] using hg, by simp⟩
      exact hfirst.append (ih fun g' hg' => h g' (List.mem_cons_of_mem _ hg'))

/-- A character that begins inside a blank text is one of its characters, so it is blank. -/
theorem IsBlank.isBlank_of_front? {s rest : Bytes} {i : Nat} {c : Char} {w : Nat} (hs : IsBlank s)
    (hi : i < s.length) (h : Utf8.front? (s.drop i ++ rest) = some (c, w)) : ShaderForge.isBlank c = true := by
  obtain ⟨cs, hcs, rfl⟩ := isBlank_iff.1 hs
  clear hs
  induction cs generalizing i with
  | nil => simp at hi
  | cons d cs ih =>
    rw [List.flatMap_cons] at hi h
    rcases Nat.lt_or_ge i (Utf8.encode d).length with hin | hout
    · rw [List.drop_append_of_le_length (Nat.le_of_lt hin), List.append_assoc] at h
      cases i with
      | zero =>
        rw [List.drop_zero, Utf8.front?_encode_append] at h
        cases h
        exact hcs _ List.mem_cons_self
      | succ i =>
        -- inside the octets of one character, where only continuations stand
        obtain ⟨b, tail, htail⟩ : ∃ b tail, (Utf8.encode d).drop (i + 1) = b :: tail :=
          List.exists_cons_of_ne_nil (by simpa using hin)
        have hb : b ∈ (Utf8.encode d).tail := by
          refine List.mem_of_mem_drop (i := i) ?_
          rw [List.drop_tail, htail]
          exact List.mem_cons_self
        rw [htail, List.cons_append, Utf8.front?_continuation (Utf8.isContinuation_of_mem_tail b hb)] at h
        cases h
    · obtain ⟨j, rfl⟩ := Nat.exists_eq_add_of_le hout
      rw [List.drop_length_add_append] at h
      exact ih (fun e he => hcs e (List.mem_cons_of_mem d he)) (by simpa using hi) h

theorem IsBlank.not_mem {s : Bytes} (h : IsBlank s) {b : UInt8} (hascii : b.toNat < 0x80)
    (hb : isBlankOctet b = false) : b ∉ s := by
  intro hmem
  obtain ⟨i, hi, hget⟩ := List.getElem_of_mem hmem
  have hfront : Utf8.front? (s.drop i ++ []) = some (Char.ofNat b.toNat, 1) := by
    rw [List.append_nil, List.drop_eq_getElem_cons hi, hget]
    exact Utf8.front?_ascii hascii _
  have hblank : (asciiGlyph b).isBlank = true := h.isBlank_of_front? hi hfront
  rw [isBlank_asciiGlyph b hascii, hb] at hblank
  cases hblank

/-! ## Trimming -/

theorem glyphs_trimLeft (s : Bytes) :
    Utf8.glyphs (trimLeft s) = (Utf8.glyphs s).dropWhile Glyph.isBlank :=
  Utf8.glyphs_concat (List.takeWhile_append_dropWhile (p := Glyph.isBlank)).symm

theorem exists_leftMargin (s : Bytes) : ∃ left, s = left ++ trimLeft s ∧ IsBlank left := by
  have hsplit := List.takeWhile_append_dropWhile (p := Glyph.isBlank) (l := Utf8.glyphs s)
  refine ⟨Glyph.concat ((Utf8.glyphs s).takeWhile Glyph.isBlank), ?_, ?_⟩
  · rw [trimLeft, ← Glyph.concat_append, hsplit, Utf8.concat_glyphs]
  · exact isBlank_concat (List.all_eq_true.1 List.all_takeWhile)

theorem exists_rightMargin (s : Bytes) : ∃ right, s = trimRight s ++ right ∧ IsBlank right := by
  have hsplit := List.takeWhile_append_dropWhile (p := Glyph.isBlank) (l := (Utf8.glyphs s).reverse)
  have hwhole : Utf8.glyphs s = ((Utf8.glyphs s).reverse.dropWhile Glyph.isBlank).reverse ++
      ((Utf8.glyphs s).reverse.takeWhile Glyph.isBlank).reverse := by
    rw [← List.reverse_append, hsplit, List.reverse_reverse]
  refine ⟨Glyph.concat ((Utf8.glyphs s).reverse.takeWhile Glyph.isBlank).reverse, ?_, fun g hg => ?_⟩
  · rw [trimRight, ← Glyph.concat_append, ← hwhole, Utf8.concat_glyphs]
  · rw [Utf8.glyphs_concat hwhole, List.mem_reverse] at hg
    exact List.all_eq_true.1 List.all_takeWhile g hg

theorem exists_margins (s : Bytes) :
    ∃ left right, s = left ++ (trim s ++ right) ∧ IsBlank left ∧ IsBlank right := by
  obtain ⟨left, hs, hleft⟩ := exists_leftMargin s
  obtain ⟨right, ht, hright⟩ := exists_rightMargin (trimLeft s)
  refine ⟨left, right, ?_, hleft, hright⟩
  rw [trim, ← ht, ← hs]

theorem not_isBlank_of_trim {s : Bytes} {c : Char} {w : Nat} (h : Utf8.front? (trim s) = some (c, w)) :
    ShaderForge.isBlank c = false := by
  obtain ⟨right, ht, -⟩ := exists_rightMargin (trimLeft s)
  obtain ⟨gs, hglyphs⟩ := Utf8.glyphs_of_front? (Utf8.front?_append h right)
  rw [trim, ← ht] at hglyphs
  have hnot := List.head?_dropWhile_not Glyph.isBlank (Utf8.glyphs s)
  rw [← glyphs_trimLeft, hglyphs] at hnot
  simpa [Glyph.isBlank] using hnot

theorem exists_glyph_of_trim {s : Bytes} (h : trim s ≠ []) :
    ∃ g gs, Utf8.glyphs (trim s) = g :: gs ∧ g.isBlank = false := by
  cases hfront : Utf8.front? (trim s) with
  | none =>
    obtain ⟨b, t, ht⟩ := List.exists_cons_of_ne_nil h
    rw [ht] at hfront ⊢
    exact ⟨.stray b, _, Utf8.glyphs_stray hfront, rfl⟩
  | some found =>
    obtain ⟨gs, hglyphs⟩ := Utf8.glyphs_of_front? (c := found.1) (w := found.2) hfront
    exact ⟨_, gs, hglyphs, not_isBlank_of_trim (c := found.1) (w := found.2) hfront⟩

/-! ## The first occurrence -/

theorem startsWith_iff {s front : Bytes} : startsWith s front = true ↔ front <+: s := by
  rw [startsWith, Option.isSome_iff_exists]
  constructor
  · rintro ⟨rest, h⟩
    exact ⟨rest, (eq_append_of_after? h).symm⟩
  · rintro ⟨rest, rfl⟩
    exact ⟨rest, after?_append front rest⟩

theorem indexOf_of_first {part s : Bytes} {n : Nat} (hpart : part ≠ []) (h : part <+: s.drop n)
    (hfirst : ∀ i < n, ¬ part <+: s.drop i) : indexOf part s = n := by
  induction n generalizing s with
  | zero =>
    cases s with
    | nil => exact absurd (List.prefix_nil.1 h) hpart
    | cons b s =>
      rw [List.drop_zero] at h
      rw [indexOf, if_pos (startsWith_iff.2 h)]
  | succ n ih =>
    cases s with
    | nil => exact absurd (List.prefix_nil.1 h) hpart
    | cons b s =>
      have hhead : ¬ startsWith (b :: s) part = true := fun hs => hfirst 0 n.succ_pos (startsWith_iff.1 hs)
      rw [indexOf, if_neg hhead, ih h fun i hi => hfirst (i + 1) (Nat.succ_lt_succ hi)]

/-- Behind its left margin a text that begins with a character occurs for the first time. -/
theorem indexOf_trim {s left right : Bytes} {c : Char} {w : Nat} (hs : s = left ++ (trim s ++ right))
    (hleft : IsBlank left) (hfront : Utf8.front? (trim s) = some (c, w)) : indexOf (trim s) s = left.length := by
  have hblank := not_isBlank_of_trim hfront
  generalize trim s = t at hs hfront
  subst hs
  refine indexOf_of_first ?_ ?_ ?_
  · intro hnil
    rw [hnil] at hfront
    cases hfront
  · rw [List.drop_left]
    exact List.prefix_append t right
  · rintro i hi ⟨rest, hrest⟩
    have hwithin := Utf8.front?_append hfront rest
    rw [hrest, List.drop_append_of_le_length (Nat.le_of_lt hi)] at hwithin
    rw [hleft.isBlank_of_front? hi hwithin] at hblank
    cases hblank

end Bytes

end ShaderForge
