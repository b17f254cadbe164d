import ShaderForge.Proofs.Source.Fields

/-!
# ShaderForge.Proofs.Source.FieldGrammar

The bodies of structs that have fields, the fields that they have, and what is reported of the others.

* `BlankOrField`           — a segment between semicolons that is blank or a declaration.
* `FieldsAt`               — the fields of segments, one for each declaration.
* `fieldsFrom_eq_ok_iff`   — these are the fields that are read, behind which there are only blanks.
* `exists_of_fieldsFrom_error` — otherwise the first segment that is neither is reported, or the end.
* `fields_exact`           — the two for a whole body.
-/

namespace ShaderForge

variable {s left tail : Bytes} {segments : List Bytes} {offset : Nat} {fs : List Field}

/-! ## Segments -/

/-- The segment is the declaration, with the blanks `left` before it and perhaps some behind it. -/
def Declaration.StandsIn (d : Declaration) (left s : Bytes) : Prop :=
  ∃ core right, s = left ++ (core ++ right) ∧ Bytes.IsBlank left ∧ Bytes.IsBlank right ∧ d.Written core

/-- A segment that may stand before a semicolon. -/
def BlankOrField (s : Bytes) : Prop := Bytes.IsBlank s ∨ ∃ (d : Declaration) (left : Bytes), d.StandsIn left s

theorem field?_eq_ok_iff {r : Option Field} : field? offset s = .ok r ↔
    (Bytes.IsBlank s ∧ r = none) ∨
      ∃ (d : Declaration) (left : Bytes), d.StandsIn left s ∧ r = some (d.field (offset + left.length)) := by
  constructor
  · intro h
    -- a copy is taken apart for the parts of the segment; `h` is then rewritten with them
    have hread := h
    unfold field? at hread
    dsimp only at hread
    split at hread
    · rename_i hnil
      cases hread
      exact .inl ⟨Bytes.trim_eq_nil_iff.1 hnil, rfl⟩
    rename_i hne
    split at hread
    · rename_i t n semantic hsome
      obtain ⟨left, right, hs, hleft, hright⟩ := Bytes.exists_margins s
      obtain ⟨d, core, more, htrim, hmore, hcore, -⟩ := written_of_declaration? (Bytes.exists_glyph_of_trim hne) hsome
      have hparts : s = left ++ (core ++ (more ++ right)) := by
        rw [← List.append_assoc core, ← htrim]
        exact hs
      rw [hparts, field?_of_written hcore hleft (hmore.append hright), Except.ok.injEq] at h
      exact .inr ⟨d, left, ⟨core, _, hparts, hleft, hmore.append hright, hcore⟩, h.symm⟩
    · cases hread
  · rintro (⟨hblank, rfl⟩ | ⟨d, left, ⟨core, right, rfl, hleft, hright, hcore⟩, rfl⟩)
    · simp only [field?, Bytes.trim_eq_nil_iff.2 hblank, if_true]
    · exact field?_of_written hcore hleft hright offset

theorem exists_field?_iff : (∃ r, field? offset s = .ok r) ↔ BlankOrField s := by
  constructor
  · rintro ⟨r, h⟩
    rcases field?_eq_ok_iff.1 h with ⟨hblank, -⟩ | ⟨d, left, hd, -⟩
    · exact .inl hblank
    · exact .inr ⟨d, left, hd⟩
  · rintro (hblank | ⟨d, left, hd⟩)
    · exact ⟨_, field?_eq_ok_iff.2 (.inl ⟨hblank, rfl⟩)⟩
    · exact ⟨_, field?_eq_ok_iff.2 (.inr ⟨d, left, hd, rfl⟩)⟩

/-- The error is about the segment: its text is that of the segment without the blanks around it, and its offset
the first place where that text occurs. -/
def MalformedField.Reports (m : MalformedField) (offset : Nat) (s : Bytes) : Prop :=
  m = ⟨Bytes.trim s, offset + Bytes.indexOf (Bytes.trim s) s⟩

theorem reports_of_field? {m : MalformedField} (h : field? offset s = .error m) : m.Reports offset s := by
  unfold field? at h
  dsimp only at h
  split at h
  · cases h
  split at h
  · cases h
  · cases h
    rfl

/-! ## The segments of a body -/

/-- The fields of segments that end with semicolons and begin at the offset. -/
inductive FieldsAt : Nat → List Bytes → List Field → Prop
  | nil {offset : Nat} : FieldsAt offset [] []
  | blank {offset : Nat} {s : Bytes} {segments : List Bytes} {fs : List Field} (hs : Bytes.IsBlank s)
      (h : FieldsAt (offset + s.length + 1) segments fs) : FieldsAt offset (s :: segments) fs
  | field {offset : Nat} {s left : Bytes} {segments : List Bytes} {fs : List Field} {d : Declaration}
      (hd : d.StandsIn left s) (h : FieldsAt (offset + s.length + 1) segments fs) :
      FieldsAt offset (s :: segments) (d.field (offset + left.length) :: fs)

def terminated (segments : List Bytes) : Bytes := segments.flatMap (· ++ [octet ';'])

theorem fieldsFrom_cons (offset : Nat) (s : Bytes) (segments : List Bytes) (tail : Bytes) :
    fieldsFrom offset (s :: (segments ++ [tail])) = (do
      let first ← field? offset s
      let more ← fieldsFrom (offset + s.length + 1) (segments ++ [tail])
      return first.toList ++ more) :=
  fieldsFrom.eq_3 _ _ _ (by simp)

theorem fieldsFrom_eq_ok_iff :
    fieldsFrom offset (segments ++ [tail]) = .ok fs ↔ FieldsAt offset segments fs ∧ Bytes.IsBlank tail := by
  induction segments generalizing offset fs with
  | nil =>
    rw [List.nil_append, fieldsFrom, ← Bytes.trim_eq_nil_iff]
    split
    · rename_i hblank
      refine ⟨?_, ?_⟩
      · intro h
        cases h
        exact ⟨.nil, hblank⟩
      · rintro ⟨⟨⟩, -⟩
        rfl
    · rename_i hne
      refine ⟨fun h => ?_, fun h => absurd h.2 hne⟩
      cases h
  | cons s segments ih =>
    rw [List.cons_append, fieldsFrom_cons, bind_eq_ok_iff]
    constructor
    · rintro ⟨r, hr, h⟩
      obtain ⟨more, hmore, h⟩ := bind_eq_ok_iff.1 h
      cases h
      obtain ⟨hat, htail⟩ := ih.1 hmore
      rcases field?_eq_ok_iff.1 hr with ⟨hs, rfl⟩ | ⟨d, left, hd, rfl⟩
      · exact ⟨.blank hs hat, htail⟩
      · exact ⟨.field hd hat, htail⟩
    · rintro ⟨hat, htail⟩
      cases hat with
      | blank hs hat => exact ⟨none, field?_eq_ok_iff.2 (.inl ⟨hs, rfl⟩), bind_eq_ok_iff.2 ⟨fs, ih.2 ⟨hat, htail⟩, rfl⟩⟩
      | @field _ _ left _ fs d hd hat =>
        exact ⟨_, field?_eq_ok_iff.2 (.inr ⟨d, left, hd, rfl⟩), bind_eq_ok_iff.2 ⟨fs, ih.2 ⟨hat, htail⟩, rfl⟩⟩

theorem exists_fieldsAt_iff (offset : Nat) :
    (∃ fs, FieldsAt offset segments fs) ↔ ∀ s ∈ segments, BlankOrField s := by
  induction segments generalizing offset with
  | nil => exact ⟨fun _ s hs => absurd hs List.not_mem_nil, fun _ => ⟨[], .nil⟩⟩
  | cons s segments ih =>
    rw [List.forall_mem_cons, ← ih (offset + s.length + 1)]
    constructor
    · rintro ⟨fs, h⟩
      cases h with
      | blank hs h => exact ⟨.inl hs, _, h⟩
      | field hd h => exact ⟨.inr ⟨_, _, hd⟩, _, h⟩
    · rintro ⟨hs | ⟨d, left, hd⟩, fs, h⟩
      · exact ⟨fs, .blank hs h⟩
      · exact ⟨_, .field hd h⟩

/-- What is reported is the first segment that is neither blank nor a declaration, or the end if that is not blank. -/
theorem exists_of_fieldsFrom_error {m : MalformedField} (h : fieldsFrom offset (segments ++ [tail]) = .error m) :
    ∃ good bad rest, segments ++ [tail] = good ++ bad :: rest ∧ (∀ s ∈ good, BlankOrField s) ∧
      (rest = [] → ¬ Bytes.IsBlank bad) ∧ (rest ≠ [] → ¬ BlankOrField bad) ∧
      m.Reports (offset + (terminated good).length) bad := by
  induction segments generalizing offset with
  | nil =>
    rw [List.nil_append, fieldsFrom] at h
    split at h
    · cases h
    · rename_i hne
      cases h
      exact ⟨[], tail, [], rfl, fun _ hs => absurd hs List.not_mem_nil, fun _ hs => hne (Bytes.trim_eq_nil_iff.2 hs),
        fun hrest => absurd rfl hrest, rfl⟩
  | cons s segments ih =>
    rw [List.cons_append, fieldsFrom_cons] at h
    cases hfield : field? offset s with
    | error e =>
      rw [hfield] at h
      cases h
      refine ⟨[], s, segments ++ [tail], rfl, fun _ hs => absurd hs List.not_mem_nil, fun hrest => ?_, fun _ hs => ?_,
        reports_of_field? hfield⟩
      · simp at hrest
      · obtain ⟨r, hr⟩ := exists_field?_iff.2 hs
        rw [hfield] at hr
        cases hr
    | ok r =>
      rw [hfield] at h
      cases hmore : fieldsFrom (offset + s.length + 1) (segments ++ [tail]) with
      | ok more =>
        rw [hmore] at h
        cases h
      | error e =>
        rw [hmore] at h
        cases h
        obtain ⟨good, bad, rest, hsplit, hgood, hend, hbad, hreports⟩ := ih hmore
        refine ⟨s :: good, bad, rest, congrArg (s :: ·) hsplit,
          List.forall_mem_cons.2 ⟨exists_field?_iff.1 ⟨r, hfield⟩, hgood⟩, hend, hbad, ?_⟩
        have hlen : offset + (terminated (s :: good)).length = offset + s.length + 1 + (terminated good).length := by
          simp only [terminated, List.flatMap_cons, List.length_append, List.length_singleton]
          omega
        rwa [hlen]

/-! ## The offsets of fields -/

/-- A field stands at its offset, with its type in front. -/
def Field.StandsAt (f : Field) (offset : Nat) (body : Bytes) : Prop :=
  ∃ front rest, body = front ++ (f.typeName ++ rest) ∧ f.offset = offset + front.length ∧
    f.offset < offset + body.length

theorem Declaration.StandsIn.standsAt {d : Declaration} (h : d.StandsIn left s) (offset : Nat) (rest : Bytes) :
    (d.field (offset + left.length)).StandsAt offset (s ++ rest) ∧ left.length < s.length := by
  obtain ⟨core, right, rfl, -, -, hcore⟩ := h
  obtain ⟨more, rfl⟩ : ∃ more, core = d.type.bytes ++ more := by
    cases hcore with
    | plain => exact ⟨_, rfl⟩
    | semantic => exact ⟨_, rfl⟩
  have hpos := List.length_pos_iff.2 d.type.isIdentifier.ne_nil
  refine ⟨⟨left, more ++ (right ++ rest), by simp [field], rfl, ?_⟩, ?_⟩
  · simp only [field, List.length_append]
    omega
  · simp only [List.length_append]
    omega

theorem Field.StandsAt.behind {f : Field} {body : Bytes} (h : f.StandsAt (offset + s.length + 1) body) :
    f.StandsAt offset (s ++ octet ';' :: body) := by
  obtain ⟨front, rest, rfl, hoffset, hlt⟩ := h
  refine ⟨s ++ octet ';' :: front, rest, by simp, ?_, ?_⟩
  · simp only [List.length_append, List.length_cons]
    omega
  · simp only [List.length_append, List.length_cons] at hlt ⊢
    omega

theorem FieldsAt.standsAt (h : FieldsAt offset segments fs) (tail : Bytes) :
    ∀ f ∈ fs, f.StandsAt offset (terminated segments ++ tail) := by
  induction h with
  | nil => exact fun f hf => absurd hf List.not_mem_nil
  | @blank offset s segments fs _ _ ih =>
    intro f hf
    simpa [terminated] using (ih f hf).behind
  | @field offset s left segments fs d hd _ ih =>
    have hbody : terminated (s :: segments) ++ tail = s ++ octet ';' :: (terminated segments ++ tail) := by
      simp [terminated]
    rw [hbody]
    refine List.forall_mem_cons.2 ⟨(hd.standsAt offset _).1, fun f hf => (ih f hf).behind⟩

theorem FieldsAt.ascend (h : FieldsAt offset segments fs) :
    fs.Pairwise (fun f f' => f.offset < f'.offset) ∧ ∀ f ∈ fs, offset ≤ f.offset := by
  induction h with
  | nil => exact ⟨.nil, fun f hf => absurd hf List.not_mem_nil⟩
  | @blank offset s segments fs _ _ ih =>
    refine ⟨ih.1, fun f hf => ?_⟩
    have hle := ih.2 f hf
    omega
  | @field offset s left segments fs d hd _ ih =>
    have hlt := (hd.standsAt offset []).2
    refine ⟨List.pairwise_cons.2 ⟨fun f hf => ?_, ih.1⟩, List.forall_mem_cons.2 ⟨?_, fun f hf => ?_⟩⟩
    · have hle := ih.2 f hf
      simp only [Declaration.field]
      omega
    · exact Nat.le_add_right offset left.length
    · have hle := ih.2 f hf
      omega

/-! ## Whole bodies -/

/-- A body is segments with their semicolons and an end, in one way. -/
theorem exists_segments (body : Bytes) : ∃ segments tail, body = terminated segments ++ tail ∧
    (∀ s ∈ segments, octet ';' ∉ s) ∧ octet ';' ∉ tail ∧ Bytes.split (octet ';') body = segments ++ [tail] := by
  induction body with
  | nil => exact ⟨[], [], rfl, fun _ hs => absurd hs List.not_mem_nil, List.not_mem_nil, rfl⟩
  | cons b body ih =>
    obtain ⟨segments, tail, rfl, hsegments, htail, hsplit⟩ := ih
    rw [Bytes.split, hsplit]
    by_cases hb : b = octet ';'
    · refine ⟨[] :: segments, tail, by simp [terminated, hb], List.forall_mem_cons.2 ⟨List.not_mem_nil, hsegments⟩,
        htail, ?_⟩
      rw [if_pos hb]
      rfl
    · rw [if_neg hb]
      cases segments with
      | nil => exact ⟨[], b :: tail, rfl, hsegments, List.not_mem_cons_of_ne_of_not_mem (Ne.symm hb) htail, rfl⟩
      | cons s segments =>
        obtain ⟨hs, hrest⟩ := List.forall_mem_cons.1 hsegments
        refine ⟨(b :: s) :: segments, tail, by simp [terminated], List.forall_mem_cons.2 ⟨?_, hrest⟩, htail, rfl⟩
        exact List.not_mem_cons_of_ne_of_not_mem (Ne.symm hb) hs

/-- A body is read if and only if each of its segments is blank or a declaration and the end is blank. Then it has
one field for each declaration, in order and at ascending offsets in the body, where the declarations begin. If not,
the first segment that is neither is reported, or the end: its text without the blanks around it, and its offset, if
the text begins with a character. In any case that is the offset of the first occurrence of that text. -/
theorem fields_exact (b : StructBlock) : ∃ segments tail, b.body = terminated segments ++ tail ∧
    (∀ s ∈ segments, octet ';' ∉ s) ∧ octet ';' ∉ tail ∧
    ((∃ fs, b.fields = .ok fs) ↔ (∀ s ∈ segments, BlankOrField s) ∧ Bytes.IsBlank tail) ∧
    (∀ fs, b.fields = .ok fs → FieldsAt b.bodyOffset segments fs ∧
      fs.Pairwise (fun f f' => f.offset < f'.offset) ∧ ∀ f ∈ fs, f.StandsAt b.bodyOffset b.body) ∧
    ∀ m, b.fields = .error m → ∃ good bad rest, segments ++ [tail] = good ++ bad :: rest ∧
      (∀ s ∈ good, BlankOrField s) ∧ (rest = [] → ¬ Bytes.IsBlank bad) ∧ (rest ≠ [] → ¬ BlankOrField bad) ∧
      m.Reports (b.bodyOffset + (terminated good).length) bad ∧
      ∃ left right, bad = left ++ (m.declaration ++ right) ∧ Bytes.IsBlank left ∧ Bytes.IsBlank right ∧
        ((Utf8.front? m.declaration).isSome = true →
          m.offset = b.bodyOffset + (terminated good).length + left.length) := by
  obtain ⟨segments, tail, hbody, hsegments, htail, hsplit⟩ := exists_segments b.body
  have hfields : b.fields = fieldsFrom b.bodyOffset (segments ++ [tail]) := by rw [StructBlock.fields, hsplit]
  refine ⟨segments, tail, hbody, hsegments, htail, ?_, fun fs h => ?_, fun m h => ?_⟩
  · rw [← exists_fieldsAt_iff b.bodyOffset, hfields]
    constructor
    · rintro ⟨fs, h⟩
      exact ⟨⟨fs, (fieldsFrom_eq_ok_iff.1 h).1⟩, (fieldsFrom_eq_ok_iff.1 h).2⟩
    · rintro ⟨⟨fs, hat⟩, hblank⟩
      exact ⟨fs, fieldsFrom_eq_ok_iff.2 ⟨hat, hblank⟩⟩
  · have hat := (fieldsFrom_eq_ok_iff.1 (hfields ▸ h)).1
    rw [hbody]
    exact ⟨hat, hat.ascend.1, hat.standsAt tail⟩
  · obtain ⟨good, bad, rest, hpieces, hgood, hend, hbad, hreports⟩ := exists_of_fieldsFrom_error (hfields ▸ h)
    obtain ⟨left, right, hmargins, hleft, hright⟩ := Bytes.exists_margins bad
    refine ⟨good, bad, rest, hpieces, hgood, hend, hbad, hreports, left, right, ?_, hleft, hright, fun hchar => ?_⟩
    · rw [hreports]
      exact hmargins
    · rw [hreports] at hchar ⊢
      obtain ⟨⟨c, w⟩, hfront⟩ := Option.isSome_iff_exists.1 hchar
      rw [Bytes.indexOf_trim hmargins hleft hfront]

/-- A wide blank, a line feed and a stray octet, which is reported where it first occurs: inside the wide blank. -/
theorem fields_misplaced :
    let left : Bytes := [0xE3, 0x80, 0x80, 0x0A]
    let block : StructBlock := ⟨utf8 "A", 7, left ++ [0x80], 10⟩
    Bytes.IsBlank left ∧ Bytes.trim block.body = [0x80] ∧ block.fields = .error ⟨[0x80], 11⟩ ∧
      block.bodyOffset + left.length = 14 := by
  refine ⟨Bytes.trim_eq_nil_iff.1 ?_, ?_, ?_, rfl⟩ <;> decide

end ShaderForge
