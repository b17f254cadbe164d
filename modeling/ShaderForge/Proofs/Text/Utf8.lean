import ShaderForge.Text.Utf8

/-!
# ShaderForge.Proofs.Text.Utf8

Reading UTF-8 undoes writing it. The well-formed sequences are listed once, by shape (`Sequence`); `front?` finds
exactly these at the front of a text, and `encode` writes exactly these.

* `front?_encode_append` — a character written in front of any text is read back with its width.
* `glyphs_flatMap_encode` — a text of characters has them as its glyphs, none of them stray.
* `isValid_iff` — the valid texts are the texts of characters.
* `repair_flatMap_encode` — a valid text needs no repair.
-/

namespace ShaderForge
namespace Utf8

/-- A well-formed sequence and its code point. Overlong forms, surrogates and values above U+10FFFF are shut out by
the value, not by the octets. -/
inductive Sequence : Bytes → Nat → Prop where
  | one {a : UInt8} {v : Nat} (hv : v = a.toNat) (ha : v < 0x80) : Sequence [a] v
  | two {a b : UInt8} {v : Nat} (ha : 0xC0 ≤ a.toNat) (hb : 0x80 ≤ b.toNat) (hb' : b.toNat ≤ 0xBF)
      (hv : v = (a.toNat - 0xC0) * 64 + (b.toNat - 0x80)) (hlo : 0x80 ≤ v) (hhi : v < 0x800) :
      Sequence [a, b] v
  | three {a b c : UInt8} {v : Nat} (ha : 0xE0 ≤ a.toNat) (hb : 0x80 ≤ b.toNat)
      (hb' : b.toNat ≤ 0xBF) (hc : 0x80 ≤ c.toNat) (hc' : c.toNat ≤ 0xBF)
      (hv : v = ((a.toNat - 0xE0) * 64 + (b.toNat - 0x80)) * 64 + (c.toNat - 0x80))
      (hlo : 0x800 ≤ v) (hhi : v < 0x10000) (hs : v < 0xD800 ∨ 0xDFFF < v) : Sequence [a, b, c] v
  | four {a b c d : UInt8} {v : Nat} (ha : 0xF0 ≤ a.toNat) (hb : 0x80 ≤ b.toNat)
      (hb' : b.toNat ≤ 0xBF) (hc : 0x80 ≤ c.toNat) (hc' : c.toNat ≤ 0xBF) (hd : 0x80 ≤ d.toNat)
      (hd' : d.toNat ≤ 0xBF)
      (hv : v = (((a.toNat - 0xF0) * 64 + (b.toNat - 0x80)) * 64 + (c.toNat - 0x80)) * 64 +
        (d.toNat - 0x80))
      (hlo : 0x10000 ≤ v) (hhi : v < 0x110000) : Sequence [a, b, c, d] v

theorem toNat_val_ofNat {n : Nat} (h : n < 0xD800 ∨ (0xDFFF < n ∧ n < 0x110000)) :
    (Char.ofNat n).val.toNat = n := by
  have hn : n.isValidChar := h
  rw [Char.ofNat, dif_pos hn]
  rfl

theorem Sequence.scalar {q : Bytes} {v : Nat} (h : Sequence q v) :
    v < 0xD800 ∨ (0xDFFF < v ∧ v < 0x110000) := by
  cases h <;> omega

theorem payload_eq (b : UInt8) : payload b = b.toNat % 64 := by
  rw [payload, UInt8.toNat_and]
  exact Nat.and_two_pow_sub_one_eq_mod _ 6

theorem toNat_and_1F (a : UInt8) : (a &&& 0x1F).toNat = a.toNat % 32 := by
  rw [UInt8.toNat_and]
  exact Nat.and_two_pow_sub_one_eq_mod _ 5

theorem toNat_and_0F (a : UInt8) : (a &&& 0x0F).toNat = a.toNat % 16 := by
  rw [UInt8.toNat_and]
  exact Nat.and_two_pow_sub_one_eq_mod _ 4

theorem toNat_and_07 (a : UInt8) : (a &&& 0x07).toNat = a.toNat % 8 := by
  rw [UInt8.toNat_and]
  exact Nat.and_two_pow_sub_one_eq_mod _ 3

theorem isContinuation_iff (b : UInt8) :
    isContinuation b = true ↔ 0x80 ≤ b.toNat ∧ b.toNat ≤ 0xBF := by
  simp [isContinuation, UInt8.le_iff_toNat_le]

/-! ## What a lead octet asks for -/

theorem expects_eq (a : UInt8) :
    expects a =
      if 0xC2 ≤ a.toNat ∧ a.toNat ≤ 0xDF then some (1, 0x80, 0xBF)
      else if a.toNat = 0xE0 then some (2, 0xA0, 0xBF)
      else if a.toNat = 0xED then some (2, 0x80, 0x9F)
      else if 0xE1 ≤ a.toNat ∧ a.toNat ≤ 0xEF then some (2, 0x80, 0xBF)
      else if a.toNat = 0xF0 then some (3, 0x90, 0xBF)
      else if a.toNat = 0xF4 then some (3, 0x80, 0x8F)
      else if 0xF1 ≤ a.toNat ∧ a.toNat ≤ 0xF3 then some (3, 0x80, 0xBF)
      else none := by
  simp only [expects, UInt8.le_iff_toNat_le, ← UInt8.toNat_inj, Bool.and_eq_true, decide_eq_true_eq,
    UInt8.reduceToNat]

/-- What a lead of three octets asks of the second one: the value is neither overlong nor a surrogate. -/
theorem expects_three {a : UInt8} (ha : 0xE0 ≤ a.toNat) (ha' : a.toNat ≤ 0xEF) :
    ∃ lo hi, expects a = some (2, lo, hi) ∧ ∀ b : UInt8, (lo ≤ b && b ≤ hi) = true ↔
      0x80 ≤ b.toNat ∧ b.toNat ≤ 0xBF ∧ 0x20 ≤ (a.toNat - 0xE0) * 64 + (b.toNat - 0x80) ∧
        ((a.toNat - 0xE0) * 64 + (b.toNat - 0x80) < 0x360 ∨
          0x37F < (a.toNat - 0xE0) * 64 + (b.toNat - 0x80)) := by
  rw [expects_eq, if_neg (by omega)]
  simp only [UInt8.le_iff_toNat_le, Bool.and_eq_true, decide_eq_true_eq]
  by_cases h0 : a.toNat = 0xE0
  · rw [if_pos h0]
    exact ⟨_, _, rfl, fun b => by simp only [UInt8.reduceToNat]; omega⟩
  by_cases hD : a.toNat = 0xED
  · rw [if_neg h0, if_pos hD]
    exact ⟨_, _, rfl, fun b => by simp only [UInt8.reduceToNat]; omega⟩
  · rw [if_neg h0, if_neg hD, if_pos (by omega)]
    exact ⟨_, _, rfl, fun b => by simp only [UInt8.reduceToNat]; omega⟩

/-- What a lead of four octets asks of the second one: the value is neither overlong nor too large. -/
theorem expects_four {a : UInt8} (ha : 0xF0 ≤ a.toNat) (ha' : a.toNat ≤ 0xF4) :
    ∃ lo hi, expects a = some (3, lo, hi) ∧ ∀ b : UInt8, (lo ≤ b && b ≤ hi) = true ↔
      0x80 ≤ b.toNat ∧ b.toNat ≤ 0xBF ∧ 0x10 ≤ (a.toNat - 0xF0) * 64 + (b.toNat - 0x80) ∧
        (a.toNat - 0xF0) * 64 + (b.toNat - 0x80) < 0x110 := by
  rw [expects_eq, if_neg (by omega), if_neg (by omega), if_neg (by omega), if_neg (by omega)]
  simp only [UInt8.le_iff_toNat_le, Bool.and_eq_true, decide_eq_true_eq]
  by_cases h0 : a.toNat = 0xF0
  · rw [if_pos h0]
    exact ⟨_, _, rfl, fun b => by simp only [UInt8.reduceToNat]; omega⟩
  by_cases h4 : a.toNat = 0xF4
  · rw [if_neg h0, if_pos h4]
    exact ⟨_, _, rfl, fun b => by simp only [UInt8.reduceToNat]; omega⟩
  · rw [if_neg h0, if_neg h4, if_pos (by omega)]
    exact ⟨_, _, rfl, fun b => by simp only [UInt8.reduceToNat]; omega⟩

theorem expects_two {a : UInt8} (ha : 0xC2 ≤ a.toNat) (ha' : a.toNat ≤ 0xDF) :
    expects a = some (1, 0x80, 0xBF) := by
  rw [expects_eq, if_pos ⟨ha, ha'⟩]

theorem expects_none {a : UInt8} (h : a.toNat < 0xC2 ∨ 0xF4 < a.toNat) : expects a = none := by
  rw [expects_eq]
  repeat rw [if_neg (by omega)]

theorem mid_range (b : UInt8) :
    (0x80 ≤ b && b ≤ 0xBF) = true ↔ 0x80 ≤ b.toNat ∧ b.toNat ≤ 0xBF := isContinuation_iff b

/-! ## Reading and writing -/

/-- The sequences at the front of a text are found. -/
theorem front?_of_sequence {q : Bytes} {v : Nat} (h : Sequence q v) (s : Bytes) :
    front? (q ++ s) = some (Char.ofNat v, q.length) := by
  cases h with
  | @one a v hv ha =>
    subst hv
    simp only [List.cons_append, List.nil_append, front?, UInt8.lt_iff_toNat_lt, UInt8.reduceToNat]
    rw [if_pos ha]
    rfl
  | @two a b v ha hb hb' hv hlo hhi =>
    simp only [List.cons_append, List.nil_append, front?, UInt8.lt_iff_toNat_lt, UInt8.reduceToNat]
    rw [if_neg (by omega), expects_two (by omega) (by omega)]
    simp only [toNat_and_1F, payload_eq]
    rw [if_pos ((mid_range b).2 ⟨hb, hb'⟩)]
    congr 3
    omega
  | @three a b c v ha hb hb' hc hc' hv hlo hhi hs =>
    obtain ⟨lo, hi, hexp, hsecond⟩ := expects_three (a := a) (by omega) (by omega)
    simp only [List.cons_append, List.nil_append, front?, UInt8.lt_iff_toNat_lt, UInt8.reduceToNat]
    rw [if_neg (by omega), hexp]
    simp only [toNat_and_0F, payload_eq]
    rw [if_pos (by rw [Bool.and_eq_true, hsecond, isContinuation_iff]; omega)]
    congr 3
    omega
  | @four a b c d v ha hb hb' hc hc' hd hd' hv hlo hhi =>
    obtain ⟨lo, hi, hexp, hsecond⟩ := expects_four (a := a) (by omega) (by omega)
    simp only [List.cons_append, List.nil_append, front?, UInt8.lt_iff_toNat_lt, UInt8.reduceToNat]
    rw [if_neg (by omega), hexp]
    simp only [toNat_and_07, payload_eq]
    rw [if_pos (by
      rw [Bool.and_eq_true, Bool.and_eq_true, hsecond, isContinuation_iff, isContinuation_iff]
      omega)]
    congr 3
    omega

/-- Whatever is found at the front of a text is a sequence. -/
theorem sequence_of_front? {s : Bytes} {c : Char} {w : Nat} (h : front? s = some (c, w)) :
    ∃ q v rest, Sequence q v ∧ s = q ++ rest ∧ c = Char.ofNat v ∧ w = q.length := by
  cases s with
  | nil => cases h
  | cons a s =>
    simp only [front?, UInt8.lt_iff_toNat_lt, UInt8.reduceToNat] at h
    by_cases h1 : a.toNat < 0x80
    · rw [if_pos h1] at h
      cases h
      exact ⟨[a], _, s, .one rfl h1, rfl, rfl, rfl⟩
    rw [if_neg h1] at h
    -- the first octet tells how many follow, and how the second is bounded
    by_cases h2 : a.toNat < 0xC2 ∨ 0xF4 < a.toNat
    · rw [expects_none h2] at h
      cases h
    by_cases h3 : a.toNat ≤ 0xDF
    · rw [expects_two (by omega) h3] at h
      cases s with
      | nil => cases h
      | cons b s =>
        simp only [toNat_and_1F, payload_eq] at h
        split at h
        · rename_i hb
          cases h
          rw [mid_range] at hb
          exact ⟨[a, b], _, s, .two (by omega) hb.1 hb.2 rfl (by omega) (by omega), rfl,
            congrArg Char.ofNat (by omega), rfl⟩
        · cases h
    by_cases h4 : a.toNat ≤ 0xEF
    · obtain ⟨lo, hi, hexp, hsecond⟩ := expects_three (a := a) (by omega) h4
      rw [hexp] at h
      rcases s with _ | ⟨b, _ | ⟨c', s⟩⟩
      · cases h
      · cases h
      · simp only [toNat_and_0F, payload_eq] at h
        split at h
        · rename_i hb
          cases h
          rw [Bool.and_eq_true, hsecond, isContinuation_iff] at hb
          exact ⟨[a, b, c'], _, s, .three (by omega) hb.1.1 hb.1.2.1 hb.2.1 hb.2.2 rfl (by omega)
            (by omega) (by omega), rfl, congrArg Char.ofNat (by omega), rfl⟩
        · cases h
    · obtain ⟨lo, hi, hexp, hsecond⟩ := expects_four (a := a) (by omega) (by omega)
      rw [hexp] at h
      rcases s with _ | ⟨b, _ | ⟨c', _ | ⟨d, s⟩⟩⟩
      · cases h
      · cases h
      · cases h
      · simp only [toNat_and_07, payload_eq] at h
        split at h
        · rename_i hb
          cases h
          rw [Bool.and_eq_true, Bool.and_eq_true, hsecond, isContinuation_iff, isContinuation_iff] at hb
          exact ⟨[a, b, c', d], _, s, .four (by omega) hb.1.1.1 hb.1.1.2.1 hb.1.2.1 hb.1.2.2 hb.2.1
            hb.2.2 rfl (by omega) (by omega), rfl, congrArg Char.ofNat (by omega), rfl⟩
        · cases h

theorem toNat_ofNat_lt {n : Nat} (h : n < 256) : (UInt8.ofNat n).toNat = n := by
  rw [UInt8.toNat_ofNat']; exact Nat.mod_eq_of_lt h

theorem sequence_encode (c : Char) : Sequence (encode c) c.val.toNat := by
  have hv : c.val.toNat < 0xD800 ∨ (0xDFFF < c.val.toNat ∧ c.val.toNat < 0x110000) := c.valid
  simp only [encode, String.utf8EncodeChar]
  generalize c.val.toNat = v at hv
  by_cases h1 : v ≤ 0x7F
  · rw [if_pos h1]
    exact .one (by rw [toNat_ofNat_lt (by omega)]) (by omega)
  rw [if_neg h1]
  by_cases h2 : v ≤ 0x7FF
  · rw [if_pos h2]
    apply Sequence.two <;> (repeat rw [toNat_ofNat_lt (by omega)]) <;> omega
  rw [if_neg h2]
  by_cases h3 : v ≤ 0xFFFF
  · rw [if_pos h3]
    apply Sequence.three <;> (repeat rw [toNat_ofNat_lt (by omega)]) <;> omega
  · rw [if_neg h3]
    apply Sequence.four <;> (repeat rw [toNat_ofNat_lt (by omega)]) <;> omega

theorem Sequence.unique {q r : Bytes} {v : Nat} (h : Sequence q v) (k : Sequence r v) : q = r := by
  cases h <;> cases k <;> simp only [List.cons.injEq, and_true, ← UInt8.toNat_inj] <;> omega

/-- The octets of a character are its code point or lie above the ASCII ones. -/
theorem toNat_of_mem_encode {c : Char} {b : UInt8} (h : b ∈ encode c) :
    b.toNat = c.val.toNat ∨ 0x80 ≤ b.toNat := by
  have hseq := sequence_encode c
  generalize encode c = q at h hseq
  generalize c.val.toNat = v at hseq
  cases hseq <;> simp only [List.mem_cons, List.not_mem_nil, or_false] at h <;>
    rcases h with rfl | rfl | rfl | rfl <;> omega

theorem encode_of_sequence {q : Bytes} {v : Nat} (h : Sequence q v) : encode (Char.ofNat v) = q := by
  have := sequence_encode (Char.ofNat v)
  rw [toNat_val_ofNat h.scalar] at this
  exact this.unique h

theorem front?_encode_append (c : Char) (s : Bytes) :
    front? (encode c ++ s) = some (c, (encode c).length) := by
  rw [front?_of_sequence (sequence_encode c)]
  congr 2
  exact Char.ofNat_toNat c

theorem encode_of_front? {s : Bytes} {c : Char} {w : Nat} (h : front? s = some (c, w)) :
    ∃ rest, s = encode c ++ rest ∧ w = (encode c).length := by
  obtain ⟨q, v, rest, hq, rfl, rfl, rfl⟩ := sequence_of_front? h
  exact ⟨rest, by rw [encode_of_sequence hq], by rw [encode_of_sequence hq]⟩

/-! ## Whole texts -/

theorem glyphsFrom_skip (q s : Bytes) : glyphsFrom q.length (q ++ s) = glyphs s := by
  induction q with
  | nil => rfl
  | cons b q ih => simpa only [List.cons_append, List.length_cons, glyphsFrom] using ih

theorem encode_ne_nil (c : Char) : encode c ≠ [] := String.utf8EncodeChar_ne_nil

theorem glyphs_encode_append (c : Char) (s : Bytes) :
    glyphs (encode c ++ s) = .scalar c :: glyphs s := by
  have hfront := front?_encode_append c s
  cases hq : encode c with
  | nil => exact absurd hq (encode_ne_nil c)
  | cons b q =>
    rw [hq] at hfront
    simp only [List.cons_append] at hfront ⊢
    simp only [glyphs, glyphsFrom, hfront, List.length_cons, Nat.add_sub_cancel, glyphsFrom_skip]

theorem glyphs_stray {b : UInt8} {s : Bytes} (h : front? (b :: s) = none) :
    glyphs (b :: s) = .stray b :: glyphs s := by
  simp only [glyphs, glyphsFrom, h]

theorem glyphs_flatMap_encode (cs : List Char) :
    glyphs (cs.flatMap encode) = cs.map Glyph.scalar := by
  induction cs with
  | nil => rfl
  | cons c cs ih => rw [List.flatMap_cons, glyphs_encode_append, ih, List.map_cons]

/-- No octet is lost: the glyphs of a text, written again, are the text. -/
theorem concat_glyphs (s : Bytes) : Glyph.concat (glyphs s) = s := by
  induction hn : s.length using Nat.strongRecOn generalizing s with
  | ind n ih =>
    cases s with
    | nil => rfl
    | cons b t =>
      cases hfront : front? (b :: t) with
      | none =>
        have ht := ih t.length (by simp only [List.length_cons] at hn; omega) t rfl
        rw [glyphs_stray hfront]
        simp only [Glyph.concat, List.flatMap_cons, Glyph.bytes] at ht ⊢
        rw [ht]; rfl
      | some found =>
        obtain ⟨rest, hs, _⟩ := encode_of_front? (c := found.1) (w := found.2) hfront
        have hpos := List.length_pos_iff.2 (encode_ne_nil found.1)
        have hlen := congrArg List.length hs
        simp only [List.length_append] at hlen
        have hrest := ih rest.length (by omega) rest rfl
        rw [hs, glyphs_encode_append]
        simp only [Glyph.concat, List.flatMap_cons, Glyph.bytes] at hrest ⊢
        rw [hrest]

theorem isValid_flatMap_encode (cs : List Char) : isValid (cs.flatMap encode) = true := by
  simp [isValid, glyphs_flatMap_encode, Glyph.isScalar]

/-- The characters of a text, with U+FFFD for what is stray. -/
def characters (s : Bytes) : List Char := (glyphs s).map Glyph.shown

theorem characters_flatMap_encode {s : Bytes} (h : isValid s = true) :
    (characters s).flatMap encode = s := by
  have hall : ∀ g ∈ glyphs s, encode g.shown = g.bytes := by
    intro g hg
    have := List.all_eq_true.1 h g hg
    cases g with
    | scalar c => rfl
    | stray b => cases this
  rw [characters, List.flatMap_map, List.flatMap_def, List.map_congr_left hall, ← List.flatMap_def]
  exact concat_glyphs s

theorem isValid_iff {s : Bytes} : isValid s = true ↔ ∃ cs : List Char, s = cs.flatMap encode := by
  constructor
  · intro h
    exact ⟨characters s, (characters_flatMap_encode h).symm⟩
  · rintro ⟨cs, rfl⟩
    exact isValid_flatMap_encode cs

theorem glyphs_append {s : Bytes} (h : isValid s = true) (t : Bytes) : glyphs (s ++ t) = glyphs s ++ glyphs t := by
  obtain ⟨cs, rfl⟩ := isValid_iff.1 h
  induction cs with
  | nil => rfl
  | cons c cs ih =>
    rw [List.flatMap_cons, List.append_assoc, glyphs_encode_append, glyphs_encode_append,
      ih (isValid_flatMap_encode cs), List.cons_append]

theorem isValid_append {s t : Bytes} (hs : isValid s = true) (ht : isValid t = true) : isValid (s ++ t) = true := by
  rw [isValid, glyphs_append hs, List.all_append, Bool.and_eq_true]
  exact ⟨hs, ht⟩

theorem repair_flatMap_encode (cs : List Char) : repair (cs.flatMap encode) = cs.flatMap encode := by
  simp [repair, glyphs_flatMap_encode, List.flatMap_map, Glyph.shown]

theorem isValid_of_ascii {s : Bytes} (h : ∀ b ∈ s, b.toNat < 0x80) : isValid s = true := by
  rw [isValid_iff]
  refine ⟨s.map fun b => Char.ofNat b.toNat, ?_⟩
  induction s with
  | nil => rfl
  | cons b s ih =>
    have hb := encode_of_sequence (.one rfl (h b (by simp)))
    rw [List.map_cons, List.flatMap_cons, hb, ← ih fun c hc => h c (List.mem_cons_of_mem _ hc)]
    rfl

end Utf8
end ShaderForge
