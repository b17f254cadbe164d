import ShaderForge.Proofs.Files.Path
import ShaderForge.Proofs.Text.Margins
import ShaderForge.Source.Encoding

/-!
# ShaderForge.Proofs.Source.Decoding

The octets of a source in any encoding, with any line ends, and the one text that is read from them.

* `SourceEncoding.encode` — a text as octets, behind a byte-order mark or without one.
* `utf16Text_flatMap`     — UTF-16 is read back, surrogate pairs included.
* `decodeText_encode`     — so is every encoding; UTF-8 without a mark only if the text does not look marked.
* `LineEnd.join`          — lines with one kind of line end between them.
* `decodeSource_uniform`  — the text that is read depends on the lines only, and never has a carriage return.
* `HasLines`              — the lines of a text in which every kind of line end may occur.
* `newlines_universal`    — these lines are kept, in one pass or in two.
-/

namespace ShaderForge

/-- U+FEFF. At the front of a text it tells the encoding. -/
def byteOrderMark : Char := Char.ofNat 0xFEFF

/-- The code units of a character: its code point, or a pair of surrogates. -/
def utf16Units (c : Char) : List Nat :=
  if c.val.toNat < 0x10000 then [c.val.toNat]
  else [0xD800 + (c.val.toNat - 0x10000) / 0x400, 0xDC00 + (c.val.toNat - 0x10000) % 0x400]

def ByteOrder.pair (order : ByteOrder) (u : Nat) : Bytes :=
  match order with
  | .little => [UInt8.ofNat (u % 256), UInt8.ofNat (u / 256)]
  | .big => [UInt8.ofNat (u / 256), UInt8.ofNat (u % 256)]

/-- How a source may be encoded: UTF-8 without a mark, UTF-8 with one, or UTF-16, which always has one. -/
inductive SourceEncoding where
  | plain
  | marked
  | utf16 (order : ByteOrder)
  deriving DecidableEq, Repr

def SourceEncoding.encode : SourceEncoding → List Char → Bytes
  | .plain, cs => cs.flatMap Utf8.encode
  | .marked, cs => (byteOrderMark :: cs).flatMap Utf8.encode
  | .utf16 order, cs => (byteOrderMark :: cs).flatMap fun c => (utf16Units c).flatMap order.pair

/-! ## UTF-16 -/

theorem utf16Units_lt (c : Char) : ∀ u ∈ utf16Units c, u < 65536 := by
  have hv : c.val.toNat < 0xD800 ∨ (0xDFFF < c.val.toNat ∧ c.val.toNat < 0x110000) := c.valid
  unfold utf16Units
  generalize c.val.toNat = v at hv
  intro u hu
  split at hu
  · rw [List.mem_singleton.1 hu]
    omega
  · simp only [List.mem_cons, List.not_mem_nil, or_false] at hu
    omega

/-- The octets of code units are cut into these units, and none is left over. -/
theorem codeUnits_flatMap (order : ByteOrder) {us : List Nat} (h : ∀ u ∈ us, u < 65536) :
    codeUnits order (us.flatMap order.pair) = (us, false) := by
  induction us with
  | nil => rfl
  | cons u us ih =>
    have hu := h u List.mem_cons_self
    have hlow : (UInt8.ofNat (u % 256)).toNat = u % 256 := Utf8.toNat_ofNat_lt (by omega)
    have hhigh : (UInt8.ofNat (u / 256)).toNat = u / 256 := Utf8.toNat_ofNat_lt (by omega)
    have hrest := ih fun v hv => h v (List.mem_cons_of_mem u hv)
    cases order with
    | little =>
      rw [List.flatMap_cons, ByteOrder.pair, List.cons_append, List.cons_append, List.nil_append, codeUnits, hrest]
      simp only [ByteOrder.unit, hlow, hhigh]
      rw [Nat.mod_add_div]
    | big =>
      rw [List.flatMap_cons, ByteOrder.pair, List.cons_append, List.cons_append, List.nil_append, codeUnits, hrest]
      simp only [ByteOrder.unit, hlow, hhigh]
      rw [Nat.div_add_mod]

theorem utf16Text_append (c : Char) (us : List Nat) :
    utf16Text none (utf16Units c ++ us) = c :: utf16Text none us := by
  have hv : c.val.toNat < 0xD800 ∨ (0xDFFF < c.val.toNat ∧ c.val.toNat < 0x110000) := c.valid
  have hc : Char.ofNat c.val.toNat = c := Char.ofNat_toNat c
  unfold utf16Units
  generalize c.val.toNat = v at hv hc
  split
  · have hsurrogate : isSurrogate v = false := by
      simp only [isSurrogate, Bool.and_eq_false_iff, decide_eq_false_iff_not]
      omega
    rw [List.singleton_append, utf16Text, hsurrogate, hc]
    rfl
  · have hfirst : isSurrogate (0xD800 + (v - 0x10000) / 0x400) = true := by
      simp only [isSurrogate, Bool.and_eq_true, decide_eq_true_eq]
      omega
    have hsecond : isTrailing (0xDC00 + (v - 0x10000) % 0x400) = true := by
      simp only [isTrailing, Bool.and_eq_true, decide_eq_true_eq]
      omega
    have hleading : isTrailing (0xD800 + (v - 0x10000) / 0x400) = false := by
      simp only [isTrailing, Bool.and_eq_false_iff, decide_eq_false_iff_not]
      omega
    have hvalue : 0x10000 + (0xD800 + (v - 0x10000) / 0x400 - 0xD800) * 0x400 +
        (0xDC00 + (v - 0x10000) % 0x400 - 0xDC00) = v := by omega
    rw [List.cons_append, List.singleton_append, utf16Text, if_pos hfirst, utf16Text, if_pos hsecond, surrogatePair,
      hleading, hvalue, hc]
    rfl

theorem utf16Text_flatMap (cs : List Char) : utf16Text none (cs.flatMap utf16Units) = cs := by
  induction cs with
  | nil => rfl
  | cons c cs ih => rw [List.flatMap_cons, utf16Text_append, ih]

theorem ofUtf16_flatMap (order : ByteOrder) (cs : List Char) :
    ofUtf16 order (cs.flatMap fun c => (utf16Units c).flatMap order.pair) = cs.flatMap Utf8.encode := by
  have hunits : ∀ u ∈ cs.flatMap utf16Units, u < 65536 := by
    intro u hu
    obtain ⟨c, -, hu⟩ := List.mem_flatMap.1 hu
    exact utf16Units_lt c u hu
  rw [← List.flatMap_assoc, ofUtf16, codeUnits_flatMap order hunits]
  simp only [utf16Text_flatMap, Bool.false_eq_true, if_false, List.append_nil]

/-! ## UTF-8 -/

theorem repairFrom_skip (q s : Bytes) : repairFrom q.length (q ++ s) = repairSequences s := by
  induction q with
  | nil => rfl
  | cons b q ih => simpa only [List.cons_append, List.length_cons, repairFrom] using ih

theorem repairSequences_flatMap (cs : List Char) :
    repairSequences (cs.flatMap Utf8.encode) = cs.flatMap Utf8.encode := by
  induction cs with
  | nil => rfl
  | cons c cs ih =>
    have hfront := Utf8.front?_encode_append c (cs.flatMap Utf8.encode)
    obtain ⟨b, q, hq⟩ := List.exists_cons_of_ne_nil (Utf8.encode_ne_nil c)
    rw [hq, List.cons_append] at hfront
    rw [List.flatMap_cons, hq, List.cons_append, repairSequences, repairFrom, hfront]
    simp only [List.length_cons, Nat.add_sub_cancel, repairFrom_skip, ih, hq, List.cons_append]

/-- Text that begins with another character than the mark does not look marked. -/
theorem decodeText_unmarked {cs : List Char} (h : cs.head? ≠ some byteOrderMark) :
    decodeText (cs.flatMap Utf8.encode) = repairSequences (cs.flatMap Utf8.encode) := by
  cases cs with
  | nil => rfl
  | cons c cs =>
    have hfront := Utf8.front?_encode_append c (cs.flatMap Utf8.encode)
    rw [List.flatMap_cons]
    generalize Utf8.encode c ++ cs.flatMap Utf8.encode = s at hfront
    unfold decodeText
    split
    · -- the three octets are those of the mark
      have hmark : c = byteOrderMark := congrArg Prod.fst (Option.some.inj (hfront.symm.trans rfl))
      exact absurd (congrArg some hmark) h
    · cases hfront
    · cases hfront
    · rfl

theorem decodeText_encode {enc : SourceEncoding} {cs : List Char}
    (h : enc = .plain → cs.head? ≠ some byteOrderMark) : decodeText (enc.encode cs) = cs.flatMap Utf8.encode := by
  cases enc with
  | plain => exact (decodeText_unmarked (h rfl)).trans (repairSequences_flatMap cs)
  | marked => rfl
  | utf16 order =>
    cases order with
    | little => exact ofUtf16_flatMap .little cs
    | big => exact ofUtf16_flatMap .big cs

/-! ## Line ends -/

/-- How lines may be ended. -/
inductive LineEnd where
  | lf
  | crlf
  | cr
  deriving DecidableEq, Repr

namespace LineEnd

def chars : LineEnd → List Char
  | .lf => ['\n']
  | .crlf => ['\r', '\n']
  | .cr => ['\r']

/-- The lines with one kind of line end between them. -/
def join (eol : LineEnd) (lines : List (List Char)) : List Char := eol.chars.intercalate lines

theorem join_cons_cons (eol : LineEnd) (l l' : List Char) (lines : List (List Char)) :
    eol.join (l :: l' :: lines) = l ++ (eol.chars ++ eol.join (l' :: lines)) := by
  rw [join, List.intercalate_cons_cons, List.append_assoc]
  rfl

/-- A text begins with what its first line begins with, or with a line end. -/
theorem head?_join {eol : LineEnd} {l : List Char} {lines : List (List Char)} {c : Char}
    (h : (eol.join (l :: lines)).head? = some c) : l.head? = some c ∨ eol.chars.head? = some c := by
  cases lines with
  | nil => exact .inl (by simpa [join] using h)
  | cons l' lines =>
    rw [join_cons_cons] at h
    cases l with
    | cons d l => exact .inl h
    | nil => cases eol <;> exact .inr h

end LineEnd

theorem cr_not_mem_normalizeNewlines (s : Bytes) : Bytes.cr ∉ normalizeNewlines s := by
  fun_induction normalizeNewlines s with
  | case1 => exact List.not_mem_nil
  | case2 s ih => exact List.not_mem_cons_of_ne_of_not_mem (by decide) ih
  | case3 b s _ ih =>
    refine List.not_mem_cons_of_ne_of_not_mem ?_ ih
    split
    · decide
    · exact Ne.symm ‹_›

theorem normalizeNewlines_cons {b : UInt8} (hb : b ≠ Bytes.cr) (s : Bytes) :
    normalizeNewlines (b :: s) = b :: normalizeNewlines s := by
  rw [normalizeNewlines, if_neg hb]
  rintro s' rfl
  exact absurd rfl hb

theorem normalizeNewlines_append {s : Bytes} (hs : Bytes.cr ∉ s) (r : Bytes) :
    normalizeNewlines (s ++ r) = s ++ normalizeNewlines r := by
  induction s with
  | nil => rfl
  | cons b s ih =>
    obtain ⟨hb, hs⟩ : Bytes.cr ≠ b ∧ Bytes.cr ∉ s := by simpa using hs
    rw [List.cons_append, normalizeNewlines_cons hb.symm, ih hs, List.cons_append]

/-- Each kind of line end becomes a line feed. One that is a carriage return must not have a line feed behind it. -/
theorem normalizeNewlines_lineEnd (eol : LineEnd) {r : Bytes} (hr : eol = .cr → r.head? ≠ some Bytes.lf) :
    normalizeNewlines (eol.chars.flatMap Utf8.encode ++ r) = Bytes.lf :: normalizeNewlines r := by
  cases eol with
  | lf => exact normalizeNewlines_cons (by decide) r
  | crlf => rfl
  | cr =>
    show normalizeNewlines (Bytes.cr :: r) = _
    rw [normalizeNewlines, if_pos rfl]
    rintro s' - rfl
    exact hr rfl rfl

/-- An ASCII octet stands in a text only where its character does. -/
theorem not_mem_flatMap_encode {l : List Char} {b : UInt8} {c : Char} (hc : c.val.toNat = b.toNat)
    (hb : b.toNat < 0x80) (hl : c ∉ l) : b ∉ l.flatMap Utf8.encode := by
  intro hmem
  obtain ⟨d, hd, hbd⟩ := List.mem_flatMap.1 hmem
  rcases Utf8.toNat_of_mem_encode hbd with heq | hge
  · have hcd : c = d := Char.ext (UInt32.toNat_inj.1 (hc.trans heq))
    exact hl (hcd ▸ hd)
  · omega

theorem head?_of_lf {cs : List Char} (h : (cs.flatMap Utf8.encode).head? = some Bytes.lf) : cs.head? = some '\n' := by
  cases cs with
  | nil => cases h
  | cons c cs =>
    refine Decidable.byContradiction fun hne => ?_
    have hnone : Bytes.lf ∉ [c].flatMap Utf8.encode :=
      not_mem_flatMap_encode (c := '\n') rfl (by decide) fun hmem =>
        hne (congrArg some (List.mem_singleton.1 hmem).symm)
    obtain ⟨b, q, hq⟩ := List.exists_cons_of_ne_nil (Utf8.encode_ne_nil c)
    rw [List.flatMap_cons, hq] at h hnone
    exact hnone (Option.some.inj h ▸ List.mem_cons_self)

/-- Whatever ends the lines, line feeds end them afterwards. -/
theorem normalizeNewlines_join (eol : LineEnd) {lines : List (List Char)} (h : ∀ l ∈ lines, '\r' ∉ l ∧ '\n' ∉ l) :
    normalizeNewlines ((eol.join lines).flatMap Utf8.encode) = (LineEnd.lf.join lines).flatMap Utf8.encode := by
  have hline : ∀ l ∈ lines, Bytes.cr ∉ l.flatMap Utf8.encode := fun l hl =>
    not_mem_flatMap_encode (c := '\r') rfl (by decide) (h l hl).1
  induction lines with
  | nil => rfl
  | cons l lines ih =>
    have hl := hline l List.mem_cons_self
    cases lines with
    | nil =>
      have hlast : ∀ e : LineEnd, e.join [l] = l := fun e => by simp [LineEnd.join]
      rw [hlast, hlast, ← List.append_nil (l.flatMap Utf8.encode), normalizeNewlines_append hl]
      rfl
    | cons l' lines =>
      have hrest := ih (fun k hk => h k (List.mem_cons_of_mem l hk)) fun k hk => hline k (List.mem_cons_of_mem l hk)
      rw [LineEnd.join_cons_cons, LineEnd.join_cons_cons, List.flatMap_append, List.flatMap_append, List.flatMap_append,
        List.flatMap_append, normalizeNewlines_append hl]
      congr 1
      refine (normalizeNewlines_lineEnd eol ?_).trans (congrArg (Bytes.lf :: ·) hrest)
      rintro rfl hlf
      rcases LineEnd.head?_join (head?_of_lf hlf) with hl' | hends
      · exact (h l' (by simp)).2 (List.mem_of_mem_head? hl')
      · exact absurd hends (by decide)

/-- The text that is read from a source depends on its lines only, not on its encoding and its line ends; and
whatever is read, no carriage return is left in it. -/
theorem decodeSource_uniform :
    (∀ (enc : SourceEncoding) (eol : LineEnd) (lines : List (List Char)), (∀ l ∈ lines, '\r' ∉ l ∧ '\n' ∉ l) →
      (∀ l ∈ lines.head?, l.head? ≠ some byteOrderMark) →
      decodeSource (enc.encode (eol.join lines)) = (LineEnd.lf.join lines).flatMap Utf8.encode) ∧
    ∀ s, Bytes.cr ∉ decodeSource s := by
  refine ⟨fun enc eol lines hlines hfirst => ?_, fun s => cr_not_mem_normalizeNewlines _⟩
  have hmark : (eol.join lines).head? ≠ some byteOrderMark := by
    cases lines with
    | nil => exact nofun
    | cons l lines =>
      intro h
      rcases LineEnd.head?_join h with hl | hends
      · exact hfirst l rfl hl
      · cases eol <;> exact absurd hends (by decide)
  rw [decodeSource, decodeText_encode fun _ => hmark, normalizeNewlines_join eol hlines]

/-- A character of two surrogates, empty lines, and a mark that is not at the front. -/
theorem decodeSource_uniform_surrogates :
    let lines : List (List Char) := [['a', '😀'], [], ['\uFEFF', 'é'], []]
    (∀ l ∈ lines, '\r' ∉ l ∧ '\n' ∉ l) ∧ (∀ l ∈ lines.head?, l.head? ≠ some byteOrderMark) ∧
      (SourceEncoding.utf16 .big).encode (LineEnd.cr.join lines) =
        [0xFE, 0xFF, 0, 0x61, 0xD8, 0x3D, 0xDE, 0, 0, 0x0D, 0, 0x0D, 0xFE, 0xFF, 0, 0xE9, 0, 0x0D] ∧
      decodeSource ((SourceEncoding.utf16 .big).encode (LineEnd.cr.join lines)) = utf8 "a😀\n\n\uFEFFé\n" := by
  intro lines
  have hlines : ∀ l ∈ lines, '\r' ∉ l ∧ '\n' ∉ l := by decide
  have hfirst : ∀ l ∈ lines.head?, l.head? ≠ some byteOrderMark := by decide
  refine ⟨hlines, hfirst, by decide, ?_⟩
  rw [decodeSource_uniform.1 (.utf16 .big) .cr lines hlines hfirst]
  decide

/-! ## Lines -/

variable {s : Bytes} {ls : List Bytes}

/-- The lines of a text, which any line ends may stand between. A carriage return with a line feed behind it is not
one by itself. -/
inductive HasLines : Bytes → List Bytes → Prop
  | last {l : Bytes} (hl : Bytes.cr ∉ l ∧ Bytes.lf ∉ l) : HasLines l [l]
  | cons {l r : Bytes} {ls : List Bytes} (eol : LineEnd) (hl : Bytes.cr ∉ l ∧ Bytes.lf ∉ l)
      (hr : eol = .cr → r.head? ≠ some Bytes.lf) (h : HasLines r ls) :
      HasLines (l ++ (eol.chars.flatMap Utf8.encode ++ r)) (l :: ls)

theorem normalizeNewlines_of_free (hs : Bytes.cr ∉ s) : normalizeNewlines s = s := by
  have h := normalizeNewlines_append hs []
  rwa [normalizeNewlines, List.append_nil] at h

theorem HasLines.lines_eq (h : HasLines s ls) : Bytes.lines (normalizeNewlines s) = ls := by
  induction h with
  | last hl => rw [normalizeNewlines_of_free hl.1, Bytes.lines, Bytes.split_of_not_mem hl.2]
  | @cons l r ls eol hl hr _ ih =>
    rw [normalizeNewlines_append hl.1, normalizeNewlines_lineEnd eol hr, Bytes.lines, Bytes.split_append_sep,
      Bytes.split_of_not_mem hl.2]
    exact congrArg (l :: ·) ih

theorem HasLines.exists_cons {b : UInt8} (hb : b ≠ Bytes.cr ∧ b ≠ Bytes.lf) (h : HasLines s ls) :
    ∃ ls, HasLines (b :: s) ls := by
  have hline : ∀ {l : Bytes}, Bytes.cr ∉ l ∧ Bytes.lf ∉ l → Bytes.cr ∉ b :: l ∧ Bytes.lf ∉ b :: l := fun hl =>
    ⟨List.not_mem_cons_of_ne_of_not_mem hb.1.symm hl.1, List.not_mem_cons_of_ne_of_not_mem hb.2.symm hl.2⟩
  cases h with
  | last hl => exact ⟨_, .last (hline hl)⟩
  | cons eol hl hr h => exact ⟨_, .cons eol (hline hl) hr h⟩

theorem exists_hasLines (s : Bytes) : ∃ ls, HasLines s ls := by
  have hempty : Bytes.cr ∉ ([] : Bytes) ∧ Bytes.lf ∉ ([] : Bytes) := ⟨List.not_mem_nil, List.not_mem_nil⟩
  fun_induction normalizeNewlines s with
  | case1 => exact ⟨_, .last hempty⟩
  | case2 s ih =>
    obtain ⟨ls, h⟩ := ih
    exact ⟨_, .cons .crlf hempty nofun h⟩
  | case3 b s hne ih =>
    obtain ⟨ls, h⟩ := ih
    by_cases hcr : b = Bytes.cr
    · subst hcr
      refine ⟨_, .cons .cr hempty (fun _ hlf => ?_) h⟩
      obtain ⟨r, hr⟩ := List.head?_eq_some_iff.1 hlf
      exact hne r rfl hr
    by_cases hlf : b = Bytes.lf
    · subst hlf
      exact ⟨_, .cons .lf hempty nofun h⟩
    · exact h.exists_cons ⟨hcr, hlf⟩

/-- In two passes over the text, or in none if no carriage return is in it. -/
def normalizeInPasses (s : Bytes) : Bytes :=
  if Bytes.cr ∈ s then Bytes.replaceAll [Bytes.cr] [Bytes.lf] (Bytes.replaceAll [Bytes.cr, Bytes.lf] [Bytes.lf] s)
  else s

theorem replaceFrom_cr (b : UInt8) (s : Bytes) :
    Bytes.replaceFrom [Bytes.cr] [Bytes.lf] 0 (b :: s) =
      (if b = Bytes.cr then Bytes.lf else b) :: Bytes.replaceFrom [Bytes.cr] [Bytes.lf] 0 s := by
  by_cases hb : b = Bytes.cr
  · subst hb
    rfl
  · have hfront : Bytes.startsWith (b :: s) [Bytes.cr] = false := by
      simp [Bytes.startsWith, Bytes.after?, Ne.symm hb]
    rw [Bytes.replaceFrom, hfront, if_neg hb]
    rfl

/-- The passes go through the text as one does: the first leaves no carriage return before a line feed. -/
theorem replaceFrom_replaceFrom (s : Bytes) :
    Bytes.replaceFrom [Bytes.cr] [Bytes.lf] 0 (Bytes.replaceFrom [Bytes.cr, Bytes.lf] [Bytes.lf] 0 s) =
      normalizeNewlines s := by
  fun_induction normalizeNewlines s with
  | case1 => rfl
  | case2 s ih => exact (replaceFrom_cr _ _).trans (congrArg (Bytes.lf :: ·) ih)
  | case3 b s hne ih =>
    have hfront : Bytes.startsWith (b :: s) [Bytes.cr, Bytes.lf] = false := by
      rw [Bool.eq_false_iff, Ne, Bytes.startsWith_iff]
      rintro ⟨r, hr⟩
      cases hr
      exact hne r rfl rfl
    rw [Bytes.replaceFrom, hfront, if_neg Bool.false_ne_true, replaceFrom_cr, ih]

/-- Text with any mixture of line ends keeps its lines, which line feeds end afterwards. Two passes do what the one
does, and doing it again changes nothing. -/
theorem newlines_universal (s : Bytes) :
    (∀ ls, HasLines s ls ↔ Bytes.lines (normalizeNewlines s) = ls) ∧ normalizeInPasses s = normalizeNewlines s ∧
      normalizeNewlines (normalizeNewlines s) = normalizeNewlines s := by
  refine ⟨fun ls => ⟨HasLines.lines_eq, ?_⟩, ?_, normalizeNewlines_of_free (cr_not_mem_normalizeNewlines s)⟩
  · rintro rfl
    obtain ⟨ls, h⟩ := exists_hasLines s
    rwa [h.lines_eq]
  · unfold normalizeInPasses
    split
    · exact replaceFrom_replaceFrom s
    · exact (normalizeNewlines_of_free ‹_›).symm

end ShaderForge
