import ShaderForge.Proofs.Source.Fields
import ShaderForge.Proofs.Source.Substitution
import ShaderForge.Source.Structure

/-!
# ShaderForge.Proofs.Source.Tokens

Where the scanners say that names and declarations stand, and that they stand there, in any text.

* `blankFrom_related`   — blanking comments keeps line feeds, and changes octets to spaces only.
* `Head.name_at`, `StructBlock.name_at` — the names and bodies at their offsets.
* `StructBlock.Declares` — a declaration between semicolons of a struct body, and its offset.
* `StructBlock.fields_declares` — fields stand at their declarations; so do declarations that are no fields, if
  they begin with a character.
-/

namespace ShaderForge

/-! ## Blanked comments -/

/-- An octet and what blanking comments may make of it. -/
def Dimmed (a b : UInt8) : Prop := b = a ∨ (b = Bytes.space ∧ a ≠ Bytes.lf)

theorem blankFrom_related (mode : CommentMode) (s : Bytes) : List.Forall₂ Dimmed s (blankFrom mode s) := by
  fun_induction blankFrom mode s with
  | case1 => exact .nil
  | case2 s ih => exact .cons (.inr ⟨rfl, by decide⟩) (.cons (.inr ⟨rfl, by decide⟩) ih)
  | case3 s ih => exact .cons (.inr ⟨rfl, by decide⟩) (.cons (.inr ⟨rfl, by decide⟩) ih)
  | case4 b s _ _ ih => exact .cons (.inl rfl) ih
  | case5 s ih => exact .cons (.inl rfl) ih
  | case6 b s hb ih => exact .cons (.inr ⟨rfl, hb⟩) ih
  | case7 s ih => exact .cons (.inr ⟨rfl, by decide⟩) (.cons (.inr ⟨rfl, by decide⟩) ih)
  | case8 b s _ ih =>
    refine .cons ?_ ih
    split
    · exact .inl rfl
    · rename_i hb
      exact .inr ⟨rfl, hb⟩

theorem count_of_dimmed {s t : Bytes} (h : List.Forall₂ Dimmed s t) : t.count Bytes.lf = s.count Bytes.lf := by
  induction h with
  | nil => rfl
  | @cons a b s t hab _ ih =>
    rcases hab with rfl | ⟨rfl, ha⟩
    · rw [List.count_cons, List.count_cons, ih]
    · rw [List.count_cons_of_ne ha, List.count_cons_of_ne (by decide), ih]

theorem lineAt_blankComments (text : Bytes) (offset : Nat) :
    lineAt (blankComments text) offset = lineAt text offset := by
  unfold lineAt blankComments
  rw [count_of_dimmed (List.forall₂_take offset (blankFrom_related .code text))]

theorem skipLexSpace_suffix (s : Bytes) : skipLexSpace s <:+ s := List.dropWhile_suffix isLexSpace

theorem suffix_of_someSpace? {s rest : Bytes} (h : someSpace? s = some rest) : rest <:+ s := by
  unfold someSpace? at h
  split at h
  · split at h
    · cases h
      exact (skipLexSpace_suffix _).trans (List.suffix_cons _ _)
    · cases h
  · cases h

theorem suffix_of_after? {front s rest : Bytes} (h : Bytes.after? front s = some rest) : rest <:+ s :=
  ⟨front, (Bytes.eq_append_of_after? h).symm⟩

theorem drop_of_suffix {text s rest : Bytes} {offset : Nat} (hs : text.drop offset = s) (h : rest <:+ s) :
    text.drop (offset + (s.length - rest.length)) = rest := by
  rw [← List.drop_drop, hs]
  exact (List.suffix_iff_eq_drop.1 h).symm

theorem IsIdentifier.front? {w : Bytes} (h : IsIdentifier w) :
    ∃ c n, Utf8.front? w = some (c, n) ∧ isBlank c = false := by
  obtain ⟨b, w, rfl, hb, -⟩ := h
  obtain ⟨-, hnot, hascii⟩ := wordByte_class b (isWordByte_of_start hb)
  refine ⟨_, _, Utf8.front?_ascii hascii w, ?_⟩
  have hblank := isBlank_asciiGlyph b hascii
  rw [hnot] at hblank
  exact hblank

/-! ## Heads and blocks -/

theorem mem_matchesFrom {α : Type} {find : Option UInt8 → Nat → Bytes → Option (α × Bytes)} {text s : Bytes} {skip : Nat}
    {before : Option UInt8} {offset : Nat} (hs : text.drop offset = s) {found : α}
    (h : found ∈ matchesFrom find skip before offset s) :
    ∃ before' offset' rest, find before' offset' (text.drop offset') = some (found, rest) := by
  induction s generalizing skip before offset with
  | nil => simp [matchesFrom] at h
  | cons b s ih =>
    have hnext : text.drop (offset + 1) = s := by rw [← List.drop_drop, hs, List.drop_one, List.tail_cons]
    cases skip with
    | succ skip => exact ih hnext h
    | zero =>
      rw [matchesFrom] at h
      split at h
      · rename_i first rest hfind
        rcases List.mem_cons.1 h with rfl | h
        · exact ⟨before, offset, rest, hs ▸ hfind⟩
        · exact ih hnext h
      · exact ih hnext h

theorem suffix_of_typePart? {before : Option UInt8} {s rest : Bytes} {word : Option Bytes}
    (h : typePart? before s = some (word, rest)) : rest <:+ s := by
  unfold typePart? at h
  split at h
  · rename_i hafter
    cases h
    exact (skipLexSpace_suffix _).trans (suffix_of_after? hafter)
  · split at h
    · simp only [Option.bind_eq_bind, Option.bind_eq_some_iff] at h
      obtain ⟨⟨w, behind⟩, hword, spaced, hspaced, h⟩ := h
      cases h
      exact (suffix_of_someSpace? hspaced).trans ⟨w, (eq_append_of_identifier? hword).symm⟩
    · cases h

theorem Head.name_at {text : Bytes} {h : Head} (hmem : h ∈ functions text) :
    IsIdentifier h.name ∧ h.name <+: text.drop h.offset := by
  unfold functions at hmem
  rw [headsFrom_eq] at hmem
  obtain ⟨before, offset, rest, hfind⟩ := mem_matchesFrom List.drop_zero (List.mem_of_mem_filter hmem)
  obtain ⟨head, hhead, heq⟩ := Option.map_eq_some_iff.1 hfind
  cases heq
  simp only [head?, Option.bind_eq_bind, Option.bind_eq_some_iff] at hhead
  obtain ⟨⟨word, nameAt⟩, htype, ⟨name, inside⟩, hname, hhead⟩ := hhead
  cases hhead
  simp only [nameParen?, Option.bind_eq_bind, Option.bind_eq_some_iff] at hname
  obtain ⟨⟨name', behind⟩, hidentifier, inside', -, hname⟩ := hname
  cases hname
  refine ⟨isIdentifier_of_identifier? hidentifier, ?_⟩
  rw [drop_of_suffix rfl (suffix_of_typePart? htype), eq_append_of_identifier? hidentifier]
  exact List.prefix_append _ _

theorem StructBlock.name_at {text : Bytes} {b : StructBlock} (hmem : b ∈ structs text) :
    IsIdentifier b.name ∧ b.name <+: text.drop b.offset ∧ b.body <+: text.drop b.bodyOffset := by
  unfold structs at hmem
  rw [structsFrom_eq] at hmem
  obtain ⟨before, offset, rest, hfind⟩ := mem_matchesFrom List.drop_zero hmem
  unfold structBlock? at hfind
  split at hfind
  · simp only [Option.bind_eq_bind, Option.bind_eq_some_iff] at hfind
    obtain ⟨word, hword, nameAt, hnameAt, ⟨name, behind⟩, hname, bodyAt, hbodyAt, closed, -, ended, -, hfind⟩ := hfind
    cases hfind
    have hnameSuffix := (suffix_of_someSpace? hnameAt).trans (suffix_of_after? hword)
    have hbodySuffix : bodyAt <:+ nameAt :=
      ((suffix_of_after? hbodyAt).trans (skipLexSpace_suffix _)).trans ⟨name, (eq_append_of_identifier? hname).symm⟩
    refine ⟨isIdentifier_of_identifier? hname, ?_, ?_⟩
    · rw [drop_of_suffix rfl hnameSuffix, eq_append_of_identifier? hname]
      exact List.prefix_append _ _
    · rw [drop_of_suffix rfl (hbodySuffix.trans hnameSuffix)]
      exact List.takeWhile_prefix _
  · cases hfind

/-! ## Declarations -/

/-- A declaration of a struct body: what stands between two semicolons, or between one and an end of the body,
without the blanks around it; and its offset in the text. -/
structure StructBlock.Declares (b : StructBlock) (declaration : Bytes) (offset : Nat) : Prop where
  trimmed : ∃ front left right back, b.body = front ++ (left ++ (declaration ++ right) ++ back) ∧
    (front = [] ∨ front.getLast? = some (octet ';')) ∧ (back = [] ∨ back.head? = some (octet ';')) ∧
    octet ';' ∉ left ++ (declaration ++ right) ∧ Bytes.IsBlank left ∧ Bytes.IsBlank right ∧
    declaration = Bytes.trim (left ++ (declaration ++ right)) ∧ offset = b.bodyOffset + (front ++ left).length
  ne_nil : declaration ≠ []

/-- The field is read from a declaration that stands at its offset. -/
def StructBlock.DeclaresField (b : StructBlock) (declaration : Bytes) (f : Field) : Prop :=
  b.Declares declaration f.offset ∧
    declaration? (Bytes.squeeze declaration) = some (f.typeName, f.name, f.semantic)

/-- The declaration is one of the body; its offset is right if it begins with a character. -/
def StructBlock.DeclaresMalformed (b : StructBlock) (m : MalformedField) : Prop :=
  ∃ offset, b.Declares m.declaration offset ∧ ((Utf8.front? m.declaration).isSome = true → m.offset = offset)

variable {b : StructBlock}

theorem StructBlock.exists_declares {front piece back : Bytes} (hbody : b.body = front ++ (piece ++ back))
    (hfront : front = [] ∨ front.getLast? = some (octet ';')) (hback : back = [] ∨ back.head? = some (octet ';'))
    (hpiece : octet ';' ∉ piece) (hne : Bytes.trim piece ≠ []) :
    ∃ left : Bytes, b.Declares (Bytes.trim piece) (b.bodyOffset + front.length + left.length) ∧
      ((Utf8.front? (Bytes.trim piece)).isSome = true → Bytes.indexOf (Bytes.trim piece) piece = left.length) := by
  obtain ⟨left, right, hparts, hleft, hright⟩ := Bytes.exists_margins piece
  refine ⟨left, ⟨⟨front, left, right, back, ?_, hfront, hback, ?_, hleft, hright, ?_, ?_⟩, hne⟩, fun hsome => ?_⟩
  · rw [← hparts, hbody]
  · rwa [← hparts]
  · rw [← hparts]
  · rw [List.length_append, Nat.add_assoc]
  · obtain ⟨⟨c, w⟩, hchar⟩ := Option.isSome_iff_exists.1 hsome
    exact Bytes.indexOf_trim hparts hleft hchar

theorem front?_of_declaration? {piece : Bytes} (hne : Bytes.trim piece ≠ []) {d : Bytes × Bytes × Option Bytes}
    (h : declaration? (Bytes.squeeze (Bytes.trim piece)) = some d) :
    (Utf8.front? (Bytes.trim piece)).isSome = true := by
  obtain ⟨d, core, right, hs, -, hcore, -⟩ := written_of_declaration? (Bytes.exists_glyph_of_trim hne) h
  obtain ⟨t, -, rest, -, hfront, -, -⟩ := hcore.between
  obtain ⟨c, hchar⟩ := t.front? (rest ++ right)
  rw [hs, hfront, List.append_assoc, hchar]
  rfl

theorem StructBlock.field?_declares {front piece back : Bytes} (hbody : b.body = front ++ (piece ++ back))
    (hfront : front = [] ∨ front.getLast? = some (octet ';')) (hback : back = [] ∨ back.head? = some (octet ';'))
    (hpiece : octet ';' ∉ piece) :
    Ends (fun found => ∀ f ∈ found, ∃ d, b.DeclaresField d f) b.DeclaresMalformed
      (field? (b.bodyOffset + front.length) piece) := by
  unfold field?
  dsimp only
  split
  · intro f hf
    cases hf
  rename_i hne
  obtain ⟨left, hdeclares, hindex⟩ := b.exists_declares hbody hfront hback hpiece hne
  split
  · rename_i typeName name semantic hread
    intro f hf
    cases hf
    refine ⟨Bytes.trim piece, ?_, hread⟩
    rw [hindex (front?_of_declaration? hne hread)]
    exact hdeclares
  · exact ⟨_, hdeclares, fun hsome => by rw [hindex hsome]⟩

/-- What reading the pieces of a body gives, from the one behind `front` on. -/
theorem StructBlock.fieldsFrom_declares {front : Bytes} {pieces : List Bytes} (hne : pieces ≠ [])
    (hbody : b.body = front ++ Bytes.join [octet ';'] pieces) (hfront : front = [] ∨ front.getLast? = some (octet ';'))
    (hpieces : ∀ p ∈ pieces, octet ';' ∉ p) :
    Ends (fun fs => ∀ f ∈ fs, ∃ d, b.DeclaresField d f) b.DeclaresMalformed
      (fieldsFrom (b.bodyOffset + front.length) pieces) := by
  induction pieces generalizing front with
  | nil => exact absurd rfl hne
  | cons piece pieces ih =>
    have hpiece := hpieces piece List.mem_cons_self
    cases pieces with
    | nil =>
      rw [fieldsFrom]
      split
      · intro f hf
        cases hf
      · rename_i htrim
        have hwhole : b.body = front ++ (piece ++ []) := by rw [hbody, List.append_nil, Bytes.join]
        obtain ⟨left, hdeclares, hindex⟩ := b.exists_declares hwhole hfront (.inl rfl) hpiece htrim
        exact ⟨_, hdeclares, fun hsome => by rw [hindex hsome]⟩
    | cons next pieces =>
      have hback : b.body = front ++ (piece ++ octet ';' :: Bytes.join [octet ';'] (next :: pieces)) := by
        rw [hbody, Bytes.join, List.append_assoc, List.singleton_append]
      have hrest : b.body = (front ++ piece ++ [octet ';']) ++ Bytes.join [octet ';'] (next :: pieces) := by
        rw [hback]
        simp
      have hlen : b.bodyOffset + front.length + piece.length + 1 =
          b.bodyOffset + (front ++ piece ++ [octet ';']).length := by
        simp only [List.length_append, List.length_singleton]
        omega
      rw [fieldsFrom.eq_3 _ _ _ (by simp), hlen]
      refine (b.field?_declares hback hfront (.inr rfl) hpiece).bind fun first hfirst => ?_
      refine (ih (List.cons_ne_nil _ _) hrest (.inr (by simp))
        fun p hp => hpieces p (List.mem_cons_of_mem piece hp)).bind fun more hmore => ?_
      intro f hf
      rcases List.mem_append.1 hf with hf | hf
      · exact hfirst f (Option.mem_toList.1 hf)
      · exact hmore f hf

theorem StructBlock.fields_declares (b : StructBlock) :
    Ends (fun fs => ∀ f ∈ fs, ∃ d, b.DeclaresField d f) b.DeclaresMalformed b.fields := by
  have hbody : b.body = [] ++ Bytes.join [octet ';'] (Bytes.split (octet ';') b.body) := by
    rw [List.nil_append, Bytes.join_split]
  exact b.fieldsFrom_declares (Bytes.split_ne_nil _ _) hbody (.inl rfl) fun p hp => Bytes.not_mem_of_mem_split hp

theorem StructBlock.Declares.at {text d : Bytes} {offset : Nat} (hmem : b ∈ structs text) (h : b.Declares d offset) :
    d <+: text.drop offset := by
  obtain ⟨front, left, right, back, hbody, -, -, -, -, -, -, rfl⟩ := h.trimmed
  obtain ⟨rest, hrest⟩ := (StructBlock.name_at hmem).2.2
  refine ⟨right ++ (back ++ rest), ?_⟩
  rw [← List.drop_drop, ← hrest, hbody]
  simp

theorem StructBlock.Declares.not_isBlank {d : Bytes} {offset : Nat} (h : b.Declares d offset) {c : Char} {w : Nat}
    (hfront : Utf8.front? d = some (c, w)) : isBlank c = false := by
  obtain ⟨front, left, right, back, -, -, -, -, -, -, htrim, -⟩ := h.trimmed
  rw [htrim] at hfront
  exact Bytes.not_isBlank_of_trim hfront

end ShaderForge
