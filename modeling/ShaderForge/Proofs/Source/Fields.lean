import ShaderForge.Proofs.Source.Blocks
import ShaderForge.Proofs.Text.Words

/-!
# ShaderForge.Proofs.Source.Fields

The fields of a struct whose body is spelled out.

* `declaration?_plain`, `declaration?_semantic` — one declaration, with any white space inside it.
* `Declaration.Written`    — its text, with blanks of any kind inside it.
* `field?_of_written`      — it is read as a field, with blanks of any kind around it.
* `fieldsFrom_of_spelled`  — every declaration of a body is a field, in order.
-/

namespace ShaderForge

section Fields

theorem isLexSpace_of_not_blank (b : UInt8) : isBlankOctet b = false → isLexSpace b = false :=
  Bytes.forall_octet (P := fun b => isBlankOctet b = false → isLexSpace b = false) (by decide +kernel) b

theorem Word.isRun (w : Word) : Bytes.IsRun w.bytes :=
  Bytes.isRun_of_octets w.isIdentifier.ne_nil fun b hb => (wordByte_class b (w.isIdentifier.isWord b hb)).2

theorem isRun_colon : Bytes.IsRun [octet ':'] := Bytes.isRun_of_octets (List.cons_ne_nil _ _) (by simp; decide)

theorem Word.front? (w : Word) (s : Bytes) : ∃ c, Utf8.front? (w.bytes ++ s) = some (c, 1) := by
  obtain ⟨b, v, hbytes, hb, -⟩ := w.exists_cons
  rw [hbytes]
  exact ⟨_, Utf8.front?_ascii (wordByte_class b (isWordByte_of_start hb)).2.2 (v ++ s)⟩

theorem IsGap.isBlank {g : Bytes} (hg : IsGap g) : Bytes.IsBlank g :=
  isBlank_of_octets fun b hb => (gapOctet_class (hg b hb)).2.2.2

theorem isGap_narrow (g : Bytes) : IsGap (Bytes.narrow g) := by
  unfold Bytes.narrow
  split
  · simp [IsGap]
  · simp [IsGap, gapOctets]

/-! ## One declaration -/

theorem identifier?_gap (w : Word) {g s : Bytes} (hg : IsGap g) (hs : g = [] → ∀ b ∈ s.head?, isWordByte b = false) :
    identifier? (w.bytes ++ (g ++ s)) = some (w.bytes, g ++ s) := by
  refine identifier?_word w ?_
  cases g with
  | nil => exact hs rfl
  | cons c g =>
    intro b hb
    obtain rfl : c = b := by simpa using hb
    exact (gapOctet_class (hg c List.mem_cons_self)).1

theorem skipLexSpace_word {g : Bytes} (hg : IsGap g) (w : Word) (s : Bytes) :
    skipLexSpace (g ++ (w.bytes ++ s)) = w.bytes ++ s :=
  skipLexSpace_gap hg fun b hb => (wordByte_class b (w.wordByte_of_mem_head? hb)).1

theorem someSpace?_gap {g : Bytes} (hg : IsGap g) (hne : g ≠ []) (s : Bytes) :
    someSpace? (g ++ s) = some (skipLexSpace (g ++ s)) := by
  obtain ⟨b, g, rfl⟩ := List.exists_cons_of_ne_nil hne
  have hspace := (gapOctet_class (hg b List.mem_cons_self)).2.1
  simp [someSpace?, skipLexSpace, hspace]

theorem declaration?_plain (t n : Word) {g : Bytes} (hg : IsGap g) (hne : g ≠ []) :
    declaration? (t.bytes ++ (g ++ n.bytes)) = some (t.bytes, n.bytes, none) := by
  have htype := identifier?_gap t hg (s := n.bytes) fun h => absurd h hne
  have hskip := skipLexSpace_word hg n []
  have hname := identifier?_word n (s := []) (by simp)
  have hend : skipLexSpace [] = [] := rfl
  rw [List.append_nil] at hskip hname
  simp [declaration?, htype, someSpace?_gap hg hne, hskip, hname, hend]

theorem declaration?_semantic (t n e : Word) {g g₁ g₂ : Bytes} (hg : IsGap g) (hne : g ≠ []) (hg₁ : IsGap g₁)
    (hg₂ : IsGap g₂) :
    declaration? (t.bytes ++ (g ++ (n.bytes ++ (g₁ ++ octet ':' :: (g₂ ++ e.bytes))))) =
      some (t.bytes, n.bytes, some e.bytes) := by
  have hcolon : ∀ b ∈ (octet ':' :: (g₂ ++ e.bytes)).head?, isWordByte b = false ∧ isLexSpace b = false := by
    intro b hb
    cases hb
    decide
  have htype := identifier?_gap t hg (s := n.bytes ++ (g₁ ++ octet ':' :: (g₂ ++ e.bytes))) fun h => absurd h hne
  have hname := identifier?_gap n hg₁ fun _ b hb => (hcolon b hb).1
  have hmark := skipLexSpace_gap hg₁ fun b hb => (hcolon b hb).2
  have hskip := skipLexSpace_word hg₂ e []
  have hsemantic := identifier?_word e (s := []) (by simp)
  rw [List.append_nil] at hskip hsemantic
  simp [declaration?, htype, someSpace?_gap hg hne, skipLexSpace_word hg, hname, hmark, hskip, hsemantic]

/-! ## A declaration with blanks around it -/

def Field.Reads (f : Field) (d : Declaration) : Prop :=
  f.typeName = d.type.bytes ∧ f.name = d.name.bytes ∧ f.semantic = d.semantic.map Word.bytes

def Declaration.field (d : Declaration) (offset : Nat) : Field :=
  ⟨d.type.bytes, d.name.bytes, d.semantic.map Word.bytes, offset⟩

/-- The text is the declaration. Blanks of any kind stand between type and name, and may stand around a colon. -/
inductive Declaration.Written : Declaration → Bytes → Prop
  | plain (t n : Word) {g : Bytes} (hg : Bytes.IsBlank g) (hne : g ≠ []) :
      Written ⟨t, n, none⟩ (t.bytes ++ (g ++ n.bytes))
  | semantic (t n e : Word) {g g₁ g₂ : Bytes} (hg : Bytes.IsBlank g) (hne : g ≠ []) (hg₁ : Bytes.IsBlank g₁)
      (hg₂ : Bytes.IsBlank g₂) :
      Written ⟨t, n, some e⟩ (t.bytes ++ (g ++ (n.bytes ++ (g₁ ++ octet ':' :: (g₂ ++ e.bytes)))))

namespace Declaration.Written

variable {d : Declaration} {s : Bytes}

theorem read (h : d.Written s) :
    declaration? (Bytes.squeeze s) = some (d.type.bytes, d.name.bytes, d.semantic.map Word.bytes) := by
  have hend : ∀ w : Word, Bytes.squeeze w.bytes = w.bytes := fun w => by
    simpa using Bytes.squeeze_run w.isRun Bytes.isBlank_nil
  have hbegins : ∀ w : Word, Bytes.BeginsWord w.bytes := fun w => by simpa using w.isRun.beginsWord []
  cases h with
  | plain t n hg hne =>
    rw [Bytes.squeeze_append t.isRun hg (hbegins n), hend]
    exact declaration?_plain t n (isGap_narrow _) (by simp [Bytes.narrow, hne])
  | @semantic t n e _ _ g₂ hg hne hg₁ hg₂ =>
    have hcolon := isRun_colon.beginsWord (g₂ ++ e.bytes)
    have hbehind := Bytes.squeeze_append isRun_colon hg₂ (hbegins e)
    rw [List.singleton_append] at hcolon hbehind
    rw [Bytes.squeeze_append t.isRun hg (n.isRun.beginsWord _), Bytes.squeeze_append n.isRun hg₁ hcolon, hbehind, hend]
    exact declaration?_semantic t n e (isGap_narrow _) (by simp [Bytes.narrow, hne]) (isGap_narrow _) (isGap_narrow _)

theorem between (h : d.Written s) :
    ∃ (t w : Word) (rest front : Bytes), s = t.bytes ++ rest ∧ s = front ++ w.bytes ∧ Utf8.isValid front = true := by
  cases h with
  | plain t n hg hne =>
    exact ⟨t, n, _, _, rfl, (List.append_assoc ..).symm, Utf8.isValid_append t.isRun.valid hg.valid⟩
  | @semantic t n e g g₁ g₂ hg hne hg₁ hg₂ =>
    refine ⟨t, e, _, t.bytes ++ (g ++ (n.bytes ++ (g₁ ++ ([octet ':'] ++ g₂)))), rfl, by simp, ?_⟩
    exact Utf8.isValid_append t.isRun.valid (Utf8.isValid_append hg.valid (Utf8.isValid_append n.isRun.valid
      (Utf8.isValid_append hg₁.valid (Utf8.isValid_append isRun_colon.valid hg₂.valid))))

end Declaration.Written

theorem field?_of_written {d : Declaration} {left s right : Bytes} (h : d.Written s) (hleft : Bytes.IsBlank left)
    (hright : Bytes.IsBlank right) (offset : Nat) :
    field? offset (left ++ (s ++ right)) = .ok (some (d.field (offset + left.length))) := by
  obtain ⟨t, w, rest, front, hfront, hback, hvalid⟩ := h.between
  have htrim : Bytes.trim (left ++ (s ++ right)) = s := by
    have hbegins := t.isRun.beginsWord (rest ++ right)
    rw [← List.append_assoc, ← hfront, hback, List.append_assoc] at hbegins
    rw [hback, List.append_assoc]
    exact Bytes.trim_around hleft hbegins hvalid w.isRun hright
  have hindex : Bytes.indexOf s (left ++ (s ++ right)) = left.length := by
    obtain ⟨c, hchar⟩ := t.front? rest
    rw [← hfront, ← htrim] at hchar
    have hplace := Bytes.indexOf_trim (by rw [htrim]) hleft hchar
    rwa [htrim] at hplace
  have hne : s ≠ [] := by
    rw [hfront]
    exact List.append_ne_nil_of_left_ne_nil t.isIdentifier.ne_nil rest
  simp only [field?, htrim, hne, if_false, h.read, hindex, Declaration.field]

theorem written_of_spelled {d : Declaration} {s : Bytes} (h : Spelled d.tokens s) :
    ∃ left core right, s = left ++ (core ++ right) ∧ Bytes.IsBlank left ∧ Bytes.IsBlank right ∧ d.Written core := by
  obtain ⟨t, n, semantic⟩ := d
  obtain ⟨g, r, hg, rfl, -, hr, hapart⟩ := h.skip_cons
  obtain ⟨g₁, r₁, hg₁, rfl, -, hr₁, -⟩ := hr.skip_cons
  have hne : g₁ ≠ [] := by
    rintro rfl
    obtain ⟨c, v, hbytes, hc, -⟩ := n.exists_cons
    have hends := hr.ends (hapart rfl) c (by simp [Token.bytes, hbytes])
    rw [isWordByte_of_start hc] at hends
    cases hends
  cases semantic with
  | none =>
    cases hr₁ with
    | blank hg₂ => exact ⟨g, _, r₁, by simp [Token.bytes], hg.isBlank, hg₂.isBlank, .plain t n hg₁.isBlank hne⟩
  | some e =>
    obtain ⟨g₂, r₂, hg₂, rfl, -, hr₂, -⟩ := hr₁.skip_cons
    obtain ⟨g₃, r₃, hg₃, rfl, -, hr₃, -⟩ := hr₂.skip_cons
    cases hr₃ with
    | blank hg₄ =>
      exact ⟨g, _, r₃, by simp [Token.bytes, Mark.octet], hg.isBlank, hg₄.isBlank,
        .semantic t n e hg₁.isBlank hne hg₂.isBlank hg₃.isBlank⟩

theorem eq_append_of_identifier? {s w rest : Bytes} (h : identifier? s = some (w, rest)) : s = w ++ rest := by
  unfold identifier? at h
  split at h
  · split at h
    · cases h
      exact List.takeWhile_append_dropWhile.symm
    · cases h
  · cases h

/-- A word that is read off what squeezing leaves is taken off the text, and the blanks behind it. -/
theorem eq_append_of_word {s w rest : Bytes} (hs : Bytes.BeginsWord s)
    (h : identifier? (Bytes.squeeze s) = some (w, rest)) :
    ∃ (t : Word) (g y : Bytes), t.bytes = w ∧ s = t.bytes ++ (g ++ y) ∧ Bytes.IsBlank g ∧
      (y = [] ∧ rest = [] ∨ Bytes.BeginsWord y ∧ rest = Bytes.narrow g ++ Bytes.squeeze y) := by
  let t : Word := ⟨w, isIdentifier_of_identifier? h⟩
  have hspace : Bytes.space ∉ w := fun hmem => absurd (t.isIdentifier.isWord _ hmem) (by decide)
  obtain ⟨g, y, hg⟩ := Bytes.eq_append_of_squeeze hs t.isRun hspace (eq_append_of_identifier? h)
  exact ⟨t, g, y, rfl, hg⟩

theorem skipLexSpace_squeeze (g : Bytes) {y : Bytes} (hy : Bytes.BeginsWord y) :
    skipLexSpace (Bytes.narrow g ++ Bytes.squeeze y) = Bytes.squeeze y ∧
      (g = [] → someSpace? (Bytes.narrow g ++ Bytes.squeeze y) = none) := by
  obtain ⟨b, rest, hsqueeze, hb⟩ := hy.squeeze
  have hspace := isLexSpace_of_not_blank b hb
  rw [hsqueeze]
  refine ⟨skipLexSpace_gap (isGap_narrow g) (by simpa using hspace), ?_⟩
  rintro rfl
  simp [Bytes.narrow, someSpace?, hspace]

/-- Whatever is read as a declaration is written so. -/
theorem written_of_declaration? {s : Bytes} (hs : Bytes.BeginsWord s) {r : Bytes × Bytes × Option Bytes}
    (h : declaration? (Bytes.squeeze s) = some r) :
    ∃ (d : Declaration) (core right : Bytes), s = core ++ right ∧ Bytes.IsBlank right ∧ d.Written core ∧
      r = (d.type.bytes, d.name.bytes, d.semantic.map Word.bytes) := by
  simp only [declaration?, Option.bind_eq_bind, Option.bind_eq_some_iff] at h
  obtain ⟨⟨w, rest⟩, htype, spaced, hspaced, ⟨w', rest'⟩, hname, h⟩ := h
  obtain ⟨t, g, y, rfl, rfl, hg, ⟨-, rfl⟩ | ⟨hy, rfl⟩⟩ := eq_append_of_word hs htype
  · cases hspaced
  have hne : g ≠ [] := fun hnil => by
    rw [(skipLexSpace_squeeze g hy).2 hnil] at hspaced
    cases hspaced
  obtain rfl : Bytes.squeeze y = spaced := by
    rw [(someSpace?_cases _).resolve_left (by simp [hspaced]), (skipLexSpace_squeeze g hy).1] at hspaced
    exact Option.some.inj hspaced
  obtain ⟨n, g₁, z, rfl, rfl, hg₁, ⟨rfl, rfl⟩ | ⟨hz, rfl⟩⟩ := eq_append_of_word hy hname
  · cases h
    exact ⟨_, _, g₁, by simp, hg₁, .plain t n hg hne, rfl⟩
  dsimp only at h
  rw [(skipLexSpace_squeeze g₁ hz).1] at h
  obtain ⟨b, behind, hsqueeze, -⟩ := hz.squeeze
  rw [hsqueeze] at h
  dsimp only at h
  split at h
  · rename_i hb
    subst hb
    obtain ⟨g₂, v, rfl, hg₂, hv⟩ := Bytes.eq_append_of_squeeze hz isRun_colon (by decide) hsqueeze
    simp only [Option.bind_eq_some_iff] at h
    obtain ⟨⟨w'', rest''⟩, hsemantic, h⟩ := h
    obtain ⟨-, rfl⟩ | ⟨hv, rfl⟩ := hv
    · cases hsemantic
    rw [(skipLexSpace_squeeze g₂ hv).1] at hsemantic
    obtain ⟨e, g₃, u, rfl, rfl, hg₃, hu⟩ := eq_append_of_word hv hsemantic
    dsimp only at h
    split at h
    · rename_i hend
      subst hend
      cases h
      obtain ⟨rfl, -⟩ | ⟨hu, hnil⟩ := hu
      · exact ⟨_, _, g₃, by simp, hg₃, .semantic t n e hg hne hg₁ hg₂, rfl⟩
      · obtain ⟨b, more, hmore, -⟩ := hu.squeeze
        rw [hmore] at hnil
        simp at hnil
    · cases h
  · cases h

/-! ## The body of a struct -/

theorem fieldsFrom_of_spelled {ds : List Declaration} {s : Bytes} (h : Spelled (bodyTokens ds) s) (offset : Nat) :
    ∃ fs, fieldsFrom offset (Bytes.split (octet ';') s) = .ok fs ∧ List.Forall₂ Field.Reads fs ds := by
  induction ds generalizing s offset with
  | nil =>
    have hsemicolon : octet ';' ∉ s := h.not_mem (by decide) (by decide) fun _ hm => absurd hm List.not_mem_nil
    cases h with
    | blank hg =>
      rw [Bytes.split_of_not_mem hsemicolon, fieldsFrom, if_pos (Bytes.trim_eq_nil_iff.2 hg.isBlank)]
      exact ⟨[], rfl, .nil⟩
  | cons d ds ih =>
    have hcut : Spelled (d.tokens ++ .mark .semicolon :: bodyTokens ds) s := by simpa [bodyTokens] using h
    obtain ⟨l, r, rfl, hl, hr⟩ := hcut.split
    have hsemicolon : octet ';' ∉ l := by
      refine hl.not_mem (by decide) (by decide) fun m hm => ?_
      obtain ⟨t, n, semantic⟩ := d
      cases semantic with
      | none => simp [Declaration.tokens] at hm
      | some e =>
        obtain rfl : m = .colon := by simpa [Declaration.tokens] using hm
        decide
    obtain ⟨left, core, right, hsegment, hleft, hright, hcore⟩ := written_of_spelled hl
    have hf := field?_of_written hcore hleft hright offset
    obtain ⟨fs, hfs, hall⟩ := ih hr (offset + l.length + 1)
    refine ⟨d.field (offset + left.length) :: fs, ?_, .cons ⟨rfl, rfl, rfl⟩ hall⟩
    have hsplit : Bytes.split (octet ';') (l ++ Mark.semicolon.octet :: r) = l :: Bytes.split (octet ';') r := by
      rw [show Mark.semicolon.octet = octet ';' from rfl, Bytes.split_append_sep, Bytes.split_of_not_mem hsemicolon]
      rfl
    obtain ⟨p, ps, hps⟩ := List.exists_cons_of_ne_nil (Bytes.split_ne_nil (octet ';') r)
    rw [hps] at hfs
    rw [hsplit, hps, fieldsFrom, hsegment, hf, ← hsegment, hfs]
    · rfl
    · exact List.cons_ne_nil p ps

theorem StructBlock.Reads.fields {b : StructBlock} {d : Word × List Declaration} (h : b.Reads d) :
    ∃ fs, b.fields = .ok fs ∧ List.Forall₂ Field.Reads fs d.2 :=
  fieldsFrom_of_spelled h.2 b.bodyOffset

end Fields

end ShaderForge
