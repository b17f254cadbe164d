import ShaderForge.Proofs.Text.Margins

/-!
# ShaderForge.Proofs.Text.Words

The words of a text with blanks of any kind between them, and the text that has one space there.

* `BeginsWord`, `IsRun`  — no blank in front; no blank at all.
* `trim_around`          — blanks around a text that ends with a run go, and nothing else.
* `squeeze_append`       — the blanks behind a run become one space, and no blanks become none.
* `eq_append_of_squeeze` — a run at the front of what squeezing leaves stands at the front of the text.
-/

namespace ShaderForge
namespace Bytes

variable {g p q s x y : Bytes}

/-- The text begins with a glyph that is not blank. -/
def BeginsWord (s : Bytes) : Prop := ∃ g gs, Utf8.glyphs s = g :: gs ∧ g.isBlank = false

/-- Characters without a blank among them. -/
structure IsRun (x : Bytes) : Prop where
  ne_nil : x ≠ []
  valid : Utf8.isValid x = true
  solid : ∀ g ∈ Utf8.glyphs x, g.isBlank = false

theorem isRun_of_octets (hne : x ≠ []) (h : ∀ b ∈ x, isBlankOctet b = false ∧ b.toNat < 0x80) : IsRun x :=
  ⟨hne, Utf8.isValid_of_ascii fun b hb => (h b hb).2, isBlank_of_octets h⟩

theorem glyphs_ne_nil (h : s ≠ []) : Utf8.glyphs s ≠ [] := by
  intro hnil
  rw [← Utf8.concat_glyphs s, hnil] at h
  exact h rfl

theorem IsBlank.valid (h : IsBlank g) : Utf8.isValid g = true := by
  obtain ⟨cs, -, rfl⟩ := isBlank_iff.1 h
  exact Utf8.isValid_flatMap_encode cs

theorem IsRun.beginsWord (hx : IsRun x) (y : Bytes) : BeginsWord (x ++ y) := by
  obtain ⟨g, gs, hglyphs⟩ := List.exists_cons_of_ne_nil (glyphs_ne_nil hx.ne_nil)
  refine ⟨g, gs ++ Utf8.glyphs y, ?_, hx.solid g (hglyphs ▸ List.mem_cons_self)⟩
  rw [Utf8.glyphs_append hx.valid, hglyphs, List.cons_append]

theorem beginsWord_trimLeft (h : trimLeft s ≠ []) : BeginsWord (trimLeft s) := by
  obtain ⟨g, gs, hglyphs⟩ := List.exists_cons_of_ne_nil (glyphs_ne_nil h)
  have hnot := List.head?_dropWhile_not Glyph.isBlank (Utf8.glyphs s)
  rw [← glyphs_trimLeft, hglyphs] at hnot
  exact ⟨g, gs, hglyphs, by simpa using hnot⟩

/-! ## Blanks around a text -/

theorem trimLeft_append (hg : IsBlank g) (hy : BeginsWord y) : trimLeft (g ++ y) = y := by
  obtain ⟨first, rest, hglyphs, hfirst⟩ := hy
  rw [trimLeft, Utf8.glyphs_append hg.valid, List.dropWhile_append_of_pos hg, hglyphs,
    List.dropWhile_cons_of_neg (by simp [hfirst]), ← hglyphs, Utf8.concat_glyphs]

theorem trimRight_append (hs : Utf8.isValid s = true) (hx : IsRun x) (hg : IsBlank g) :
    trimRight (s ++ (x ++ g)) = s ++ x := by
  have hblank : ∀ y ∈ (Utf8.glyphs g).reverse, y.isBlank = true := fun y hy => hg y (List.mem_reverse.1 hy)
  obtain ⟨last, front, hlast⟩ : ∃ last front, (Utf8.glyphs x).reverse = last :: front :=
    List.exists_cons_of_ne_nil (by simpa using glyphs_ne_nil hx.ne_nil)
  have hsolid : last.isBlank = false := hx.solid last (List.mem_reverse.1 (hlast ▸ List.mem_cons_self))
  rw [trimRight, Utf8.glyphs_append hs, Utf8.glyphs_append hx.valid, List.reverse_append, List.reverse_append,
    List.append_assoc, List.dropWhile_append_of_pos hblank, hlast, List.cons_append,
    List.dropWhile_cons_of_neg (by simp [hsolid]), ← List.cons_append, ← hlast, ← List.reverse_append,
    List.reverse_reverse, Glyph.concat_append, Utf8.concat_glyphs, Utf8.concat_glyphs]

theorem trim_around (hg : IsBlank g) (hbegins : BeginsWord (s ++ (x ++ q))) (hs : Utf8.isValid s = true)
    (hx : IsRun x) (hq : IsBlank q) : trim (g ++ (s ++ (x ++ q))) = s ++ x := by
  rw [trim, trimLeft_append hg hbegins, trimRight_append hs hx hq]

theorem trim_eq_nil_iff : trim s = [] ↔ IsBlank s := by
  constructor
  · intro h
    obtain ⟨left, right, hs, hleft, hright⟩ := exists_margins s
    rw [hs, h]
    exact hleft.append hright
  · intro h
    have hleft : (Utf8.glyphs s).dropWhile Glyph.isBlank = [] := by
      rw [← List.append_nil (Utf8.glyphs s), List.dropWhile_append_of_pos h, List.dropWhile_nil]
    rw [trim, trimLeft, hleft]
    rfl

/-! ## Words -/

theorem wordsFrom_run {gs : List Glyph} (h : ∀ g ∈ gs, g.isBlank = false) (word rest : List Glyph) :
    wordsFrom word (gs ++ rest) = wordsFrom (gs.reverse ++ word) rest := by
  induction gs generalizing word with
  | nil => rfl
  | cons g gs ih =>
    have hrest := ih (fun g' hg' => h g' (List.mem_cons_of_mem g hg')) (g :: word)
    simpa [wordsFrom, h g List.mem_cons_self] using hrest

theorem wordsFrom_blank {gs : List Glyph} (h : ∀ g ∈ gs, g.isBlank = true) (rest : List Glyph) :
    wordsFrom [] (gs ++ rest) = wordsFrom [] rest := by
  induction gs with
  | nil => rfl
  | cons g gs ih => simpa [wordsFrom, h g List.mem_cons_self] using ih fun g' hg' => h g' (List.mem_cons_of_mem g hg')

/-- A word that has been begun goes on and ends in the same way, whatever it began with. -/
theorem exists_word (gs : List Glyph) : ∃ rest ws, rest <+: Glyph.concat gs ∧
    ∀ word ≠ [], wordsFrom word gs = (Glyph.concat word.reverse ++ rest) :: ws := by
  induction gs with
  | nil =>
    refine ⟨[], [], List.nil_prefix, fun word hword => ?_⟩
    rw [wordsFrom, if_neg (by simpa using hword), List.append_nil]
  | cons g gs ih =>
    cases hg : g.isBlank with
    | true =>
      refine ⟨[], wordsFrom [] gs, List.nil_prefix, fun word hword => ?_⟩
      rw [wordsFrom, if_pos hg, if_neg (by simpa using hword), List.append_nil]
    | false =>
      obtain ⟨rest, ws, hrest, hws⟩ := ih
      refine ⟨g.bytes ++ rest, ws, (List.prefix_append_right_inj _).2 hrest, fun word hword => ?_⟩
      rw [wordsFrom, if_neg (by simp [hg]), hws _ (List.cons_ne_nil g word), List.reverse_cons, Glyph.concat_append]
      simp [Glyph.concat]

/-- A text that begins without a blank begins with its first word, and a run put before it lengthens that word. -/
theorem exists_first_word {h : Glyph} {gs : List Glyph} (hglyphs : Utf8.glyphs y = h :: gs) (hh : h.isBlank = false) :
    ∃ rest ws, h.bytes ++ rest <+: y ∧ words y = (h.bytes ++ rest) :: ws ∧
      ∀ x, IsRun x → words (x ++ y) = (x ++ (h.bytes ++ rest)) :: ws := by
  obtain ⟨rest, ws, hrest, hws⟩ := exists_word gs
  refine ⟨rest, ws, ?_, ?_, fun x hx => ?_⟩
  · rw [← Utf8.concat_glyphs y, hglyphs]
    exact (List.prefix_append_right_inj _).2 hrest
  · rw [words, hglyphs, wordsFrom, if_neg (by simp [hh]), hws [h] (List.cons_ne_nil h [])]
    simp [Glyph.concat]
  · rw [words, Utf8.glyphs_append hx.valid, hglyphs, wordsFrom_run hx.solid, wordsFrom, if_neg (by simp [hh]),
      hws _ (List.cons_ne_nil h _), List.append_nil, List.reverse_cons, List.reverse_reverse, Glyph.concat_append,
      Utf8.concat_glyphs]
    simp [Glyph.concat]

theorem words_run (hx : IsRun x) (hg : IsBlank g) (hend : y = [] ∨ g ≠ []) : words (x ++ (g ++ y)) = x :: words y := by
  have hword : Glyph.concat (((Utf8.glyphs x).reverse ++ []).reverse) = x := by
    rw [List.append_nil, List.reverse_reverse, Utf8.concat_glyphs]
  have hempty : ((Utf8.glyphs x).reverse ++ []).isEmpty = false := by simpa using glyphs_ne_nil hx.ne_nil
  rw [words, words, Utf8.glyphs_append hx.valid, wordsFrom_run hx.solid]
  by_cases hnil : g = []
  · rw [hnil, hend.resolve_right (absurd hnil)]
    simp only [List.append_nil, Utf8.glyphs, Utf8.glyphsFrom, wordsFrom] at hempty hword ⊢
    rw [hempty, hword]
    rfl
  · obtain ⟨c, gs, hgs⟩ := List.exists_cons_of_ne_nil (glyphs_ne_nil hnil)
    have hall : ∀ c' ∈ c :: gs, c'.isBlank = true := hgs ▸ hg
    rw [Utf8.glyphs_append hg.valid, hgs, List.cons_append, wordsFrom, hall c List.mem_cons_self, hempty, hword,
      wordsFrom_blank fun c' hc' => hall c' (List.mem_cons_of_mem c hc')]
    rfl

/-! ## Words with one space between them -/

/-- What is left of a run of blanks between words. -/
def narrow (g : Bytes) : Bytes := if g = [] then [] else [space]

theorem join_cons_append (sep a b : Bytes) (rest : List Bytes) :
    join sep ((a ++ b) :: rest) = a ++ join sep (b :: rest) := by
  cases rest <;> simp [join]

theorem squeeze_run (hx : IsRun x) (hg : IsBlank g) : squeeze (x ++ g) = x := by
  have hwords := words_run hx hg (.inl rfl)
  rw [List.append_nil] at hwords
  rw [squeeze, hwords]
  rfl

theorem squeeze_append (hx : IsRun x) (hg : IsBlank g) (hy : BeginsWord y) :
    squeeze (x ++ (g ++ y)) = x ++ (narrow g ++ squeeze y) := by
  obtain ⟨h, gs, hglyphs, hh⟩ := hy
  obtain ⟨rest, ws, -, hwords, hglued⟩ := exists_first_word hglyphs hh
  rw [squeeze, squeeze, hwords]
  by_cases hne : g = []
  · rw [hne, List.nil_append, hglued x hx, join_cons_append]
    rfl
  · rw [words_run hx hg (.inr hne), hwords]
    simp [join, narrow, hne]

/-- What squeezing leaves of a text begins as the text does, as far as its first word goes. -/
theorem squeeze_front {h : Glyph} {gs : List Glyph} (hglyphs : Utf8.glyphs s = h :: gs) (hh : h.isBlank = false) :
    ∃ rest tail, h.bytes ++ rest <+: s ∧ squeeze s = h.bytes ++ rest ++ tail ∧ (∀ b ∈ tail.head?, b = space) := by
  obtain ⟨rest, ws, hfirst, hwords, -⟩ := exists_first_word hglyphs hh
  refine ⟨rest, join [space] ([] :: ws), hfirst, ?_, ?_⟩
  · rw [squeeze, hwords, ← join_cons_append, List.append_nil]
  · cases ws <;> simp [join]

theorem BeginsWord.squeeze (hy : BeginsWord y) : ∃ b rest, Bytes.squeeze y = b :: rest ∧ isBlankOctet b = false := by
  obtain ⟨h, gs, hglyphs, hh⟩ := hy
  obtain ⟨rest, tail, hfirst, hsqueeze, -⟩ := squeeze_front hglyphs hh
  obtain ⟨b, bs, hbytes⟩ := List.exists_cons_of_ne_nil h.bytes_ne_nil
  rw [hbytes] at hfirst hsqueeze
  refine ⟨b, _, hsqueeze, ?_⟩
  cases hb : isBlankOctet b with
  | false => rfl
  | true =>
    have hascii := toNat_of_isBlankOctet b hb
    obtain ⟨more, rfl⟩ := hfirst
    obtain ⟨gs', hgs⟩ := Utf8.glyphs_of_front? (Utf8.front?_ascii hascii (bs ++ rest ++ more))
    obtain rfl : h = asciiGlyph b := (List.cons.inj (hglyphs.symm.trans hgs)).1
    rw [isBlank_asciiGlyph b hascii, hb] at hh
    cases hh

/-- Taking a run off the front of what squeezing leaves takes it off the text, and the blanks behind it. -/
theorem eq_append_of_squeeze (hs : BeginsWord s) (hp : IsRun p) (hspace : space ∉ p) (h : squeeze s = p ++ q) :
    ∃ g y, s = p ++ (g ++ y) ∧ IsBlank g ∧ (y = [] ∧ q = [] ∨ BeginsWord y ∧ q = narrow g ++ squeeze y) := by
  obtain ⟨first, gs, hglyphs, hfirst⟩ := hs
  obtain ⟨rest, tail, hfront, hsqueeze, htail⟩ := squeeze_front hglyphs hfirst
  have hprefix : p <+: s := by
    rw [h] at hsqueeze
    rcases List.append_eq_append_iff.1 hsqueeze with ⟨more, hword, -⟩ | ⟨more, hword, hmore⟩
    · exact (hword ▸ List.prefix_append p more).trans hfront
    · -- behind the first word there is nothing or a space
      cases more with
      | nil => rwa [hword, List.append_nil]
      | cons b more =>
        have hb := htail b (by rw [hmore]; rfl)
        exact absurd (by simp [hword, hb]) hspace
  obtain ⟨behind, rfl⟩ := hprefix
  obtain ⟨g, hbehind, hg⟩ := exists_leftMargin behind
  refine ⟨g, trimLeft behind, by rw [← hbehind], hg, ?_⟩
  rw [hbehind] at h
  by_cases hnil : trimLeft behind = []
  · rw [hnil, List.append_nil, squeeze_run hp hg] at h
    exact .inl ⟨hnil, List.append_right_eq_self.1 h.symm⟩
  · have hy := beginsWord_trimLeft hnil
    rw [squeeze_append hp hg hy] at h
    exact .inr ⟨hy, (List.append_cancel_left h).symm⟩

end Bytes
end ShaderForge
