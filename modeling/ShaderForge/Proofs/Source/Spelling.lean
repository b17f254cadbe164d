import ShaderForge.Proofs.Source.Declarations
import ShaderForge.Proofs.Text.Blank

/-!
# ShaderForge.Proofs.Source.Spelling

Texts as tokens with white space between them.

* `Spelled ts s`  — `s` is the tokens `ts` with any white space around them, and some between two words.
* `spellOut`      — one such text.
* `Spelled.skip_cons`, `Spelled.ends` — the front of such a text, as a scanner meets it.
* `Spelled.split` — a mark cuts the text where it cuts the tokens.
-/

namespace ShaderForge

/-! ## Tokens -/

theorem isIdentifier_iff {s : Bytes} :
    IsIdentifier s ↔ (s.head?.any isIdentifierStart && s.all isWordByte) = true := by
  cases s with
  | nil => simp [IsIdentifier]
  | cons b w =>
    simp only [IsIdentifier, IsWord, List.cons.injEq, List.head?_cons, Option.any_some, List.all_cons,
      Bool.and_eq_true, List.all_eq_true]
    constructor
    · rintro ⟨c, v, ⟨rfl, rfl⟩, hb, hw⟩
      exact ⟨hb, by simp [isWordByte, hb], hw⟩
    · rintro ⟨hb, -, hw⟩
      exact ⟨b, w, ⟨rfl, rfl⟩, hb, hw⟩

instance (s : Bytes) : Decidable (IsIdentifier s) := decidable_of_iff _ isIdentifier_iff.symm

/-- A word of a source. -/
structure Word where
  bytes : Bytes
  isIdentifier : IsIdentifier bytes

/-- The marks of struct and function definitions. -/
inductive Mark where
  | openBrace
  | closeBrace
  | openParen
  | closeParen
  | semicolon
  | colon
  deriving DecidableEq

def Mark.octet : Mark → UInt8
  | .openBrace => ShaderForge.octet '\x7b'
  | .closeBrace => ShaderForge.octet '\x7d'
  | .openParen => ShaderForge.octet '('
  | .closeParen => ShaderForge.octet ')'
  | .semicolon => ShaderForge.octet ';'
  | .colon => ShaderForge.octet ':'

inductive Token where
  | word (w : Word)
  | mark (m : Mark)

namespace Token

def bytes : Token → Bytes
  | .word w => w.bytes
  | .mark m => [m.octet]

def isWord : Token → Bool
  | .word _ => true
  | .mark _ => false

end Token

/-- The octets of white space between tokens. -/
def gapOctets : List UInt8 := [Bytes.space, Bytes.tab, Bytes.cr, Bytes.lf]

def IsGap (g : Bytes) : Prop := ∀ b ∈ g, b ∈ gapOctets

/-- What follows a word does not run into it: before another word there is white space. -/
def Apart (ts : List Token) (s : Bytes) : Prop :=
  ts.head?.any Token.isWord = true → ∃ b r, s = b :: r ∧ b ∈ gapOctets

/-- The text is these tokens, with white space wherever it may stand and at least where it must. -/
inductive Spelled : List Token → Bytes → Prop
  | blank {g : Bytes} (hg : IsGap g) : Spelled [] g
  | token {g s : Bytes} {t : Token} {ts : List Token} (hg : IsGap g) (hapart : t.isWord = true → Apart ts s)
      (h : Spelled ts s) : Spelled (t :: ts) (g ++ (t.bytes ++ s))

/-- One text of the tokens: a space behind each word. -/
def spellOut (ts : List Token) : Bytes :=
  ts.flatMap fun t => if t.isWord then t.bytes ++ [Bytes.space] else t.bytes

theorem spelled_spellOut (ts : List Token) : Spelled ts (spellOut ts) := by
  suffices hgap : ∀ g, IsGap g → Spelled ts (g ++ spellOut ts) from hgap [] (fun _ hb => absurd hb List.not_mem_nil)
  induction ts with
  | nil =>
    intro g hg
    rw [spellOut, List.flatMap_nil, List.append_nil]
    exact .blank hg
  | cons t ts ih =>
    intro g hg
    cases ht : t.isWord with
    | true =>
      have hspace : IsGap [Bytes.space] := by simp [IsGap, gapOctets]
      have hcons : spellOut (t :: ts) = t.bytes ++ ([Bytes.space] ++ spellOut ts) := by simp [spellOut, ht]
      rw [hcons]
      exact .token hg (fun _ _ => ⟨Bytes.space, spellOut ts, rfl, hspace _ List.mem_cons_self⟩) (ih _ hspace)
    | false =>
      have hcons : spellOut (t :: ts) = t.bytes ++ spellOut ts := by simp [spellOut, ht]
      rw [hcons]
      refine .token hg (fun hword => ?_) (ih [] fun _ hb => absurd hb List.not_mem_nil)
      rw [ht] at hword
      cases hword

/-! ## Classes of octets -/

theorem gapOctet_class {b : UInt8} (h : b ∈ gapOctets) :
    isWordByte b = false ∧ isLexSpace b = true ∧ isBodySpace b = true ∧ isBlankOctet b = true ∧ b.toNat < 0x80 := by
  simp only [gapOctets, List.mem_cons, List.not_mem_nil, or_false] at h
  rcases h with rfl | rfl | rfl | rfl <;> decide

theorem Mark.octet_class (m : Mark) :
    isWordByte m.octet = false ∧ isLexSpace m.octet = false ∧ isBlankOctet m.octet = false ∧
      m.octet.toNat < 0x80 := by
  cases m <;> decide

theorem ne_octet_of_mem_gapOctets {b : UInt8} (h : b ∈ gapOctets) (m : Mark) : b ≠ m.octet := by
  rintro rfl
  have hspace := (gapOctet_class h).2.1
  rw [m.octet_class.2.1] at hspace
  cases hspace

theorem Mark.octet_injective {m n : Mark} (h : m.octet = n.octet) : m = n := by
  revert h
  cases m <;> cases n <;> decide

theorem wordByte_class (b : UInt8) :
    isWordByte b = true → isLexSpace b = false ∧ isBlankOctet b = false ∧ b.toNat < 0x80 :=
  Bytes.forall_octet
    (P := fun b => isWordByte b = true → isLexSpace b = false ∧ isBlankOctet b = false ∧ b.toNat < 0x80)
    (by decide +kernel) b

theorem isWordByte_of_start {b : UInt8} (h : isIdentifierStart b = true) : isWordByte b = true := by
  simp [isWordByte, h]

theorem Word.exists_cons (w : Word) :
    ∃ b v, w.bytes = b :: v ∧ isIdentifierStart b = true ∧ IsWord v := w.isIdentifier

theorem Word.wordByte_of_mem_head? (w : Word) {s : Bytes} {b : UInt8} (hb : b ∈ (w.bytes ++ s).head?) :
    isWordByte b = true := by
  obtain ⟨c, v, hbytes, hc, -⟩ := w.exists_cons
  obtain rfl : c = b := by simpa [hbytes] using hb
  exact isWordByte_of_start hc

/-- A token begins with an octet that is no white space, and that tells words from marks. -/
theorem Token.head_bytes (t : Token) :
    ∃ b v, t.bytes = b :: v ∧ isLexSpace b = false ∧ isBlankOctet b = false ∧ isWordByte b = t.isWord := by
  cases t with
  | word w =>
    obtain ⟨b, v, hw, hb, -⟩ := w.exists_cons
    have hword := isWordByte_of_start hb
    exact ⟨b, v, hw, (wordByte_class b hword).1, (wordByte_class b hword).2.1, hword⟩
  | mark m => exact ⟨m.octet, [], rfl, m.octet_class.2.1, m.octet_class.2.2.1, m.octet_class.1⟩

/-! ## The front of a spelled text -/

section Front

variable {g s : Bytes} {ts : List Token}

theorem skipLexSpace_gap (hg : IsGap g) (hs : ∀ b ∈ s.head?, isLexSpace b = false) : skipLexSpace (g ++ s) = s :=
  Bytes.dropWhile_front (fun b hb => (gapOctet_class (hg b hb)).2.1) hs

theorem identifier?_word (w : Word) (hs : ∀ b ∈ s.head?, isWordByte b = false) :
    identifier? (w.bytes ++ s) = some (w.bytes, s) := by
  obtain ⟨b, v, hw, hb, -⟩ := w.exists_cons
  have htake := Bytes.takeWhile_front w.isIdentifier.isWord hs
  have hdrop := Bytes.dropWhile_front w.isIdentifier.isWord hs
  rw [hw, List.cons_append] at htake hdrop ⊢
  simp only [identifier?, hb, if_true, htake, hdrop]

theorem identifier?_none (hs : ∀ b ∈ s.head?, isIdentifierStart b = false) : identifier? s = none := by
  cases s with
  | nil => rfl
  | cons b s => simp [identifier?, hs b rfl]

theorem Spelled.skip_nil (h : Spelled [] s) : skipLexSpace s = [] := by
  cases h with
  | blank hg => simpa using skipLexSpace_gap hg (s := []) (by simp)

theorem Spelled.skip_cons {t : Token} (h : Spelled (t :: ts) s) :
    ∃ g r, IsGap g ∧ s = g ++ (t.bytes ++ r) ∧ skipLexSpace s = t.bytes ++ r ∧ Spelled ts r ∧
      (t.isWord = true → Apart ts r) := by
  cases h with
  | @token g r _ _ hg hapart h =>
    refine ⟨g, r, hg, rfl, skipLexSpace_gap hg fun b hb => ?_, h, hapart⟩
    obtain ⟨c, v, hbytes, hc, -⟩ := t.head_bytes
    rw [hbytes] at hb
    obtain rfl : c = b := by simpa using hb
    exact hc

theorem Spelled.ends (h : Spelled ts s) (hapart : Apart ts s) : ∀ b ∈ s.head?, isWordByte b = false := by
  intro b hb
  cases h with
  | blank hg => exact (gapOctet_class (hg b (List.mem_of_mem_head? hb))).1
  | @token g r t ts hg _ h =>
    cases g with
    | cons c g =>
      obtain rfl : c = b := by simpa using hb
      exact (gapOctet_class (hg c List.mem_cons_self)).1
    | nil =>
      obtain ⟨c, v, hbytes, -, -, hc⟩ := t.head_bytes
      obtain rfl : c = b := by simpa [hbytes] using hb
      rw [hc]
      -- a word would need white space before it, and there is none
      cases hword : t.isWord with
      | false => rfl
      | true =>
        obtain ⟨d, q, hd, hgap⟩ := hapart hword
        obtain rfl : c = d := by simpa [hbytes] using congrArg List.head? hd
        rw [hword, (gapOctet_class hgap).1] at hc
        cases hc

theorem someSpace?_of_apart {w : Word} (hapart : Apart (.word w :: ts) s) : someSpace? s = some (skipLexSpace s) := by
  obtain ⟨b, r, rfl, hb⟩ := hapart rfl
  have hspace := (gapOctet_class hb).2.1
  simp [someSpace?, skipLexSpace, hspace]

theorem someSpace?_cases (s : Bytes) : someSpace? s = none ∨ someSpace? s = some (skipLexSpace s) := by
  cases s with
  | nil => exact .inl rfl
  | cons b s =>
    cases hb : isLexSpace b with
    | false => exact .inl (by simp [someSpace?, hb])
    | true => exact .inr (by simp [someSpace?, skipLexSpace, hb])

theorem after?_mark_none {t : Token} {r : Bytes} {m : Mark} (h : ∀ n, t = .mark n → n ≠ m) :
    Bytes.after? [m.octet] (t.bytes ++ r) = none := by
  obtain ⟨b, v, hbytes, -, -, hb⟩ := t.head_bytes
  have hne : m.octet ≠ b := by
    rintro rfl
    cases t with
    | word w =>
      rw [m.octet_class.1] at hb
      cases hb
    | mark n =>
      have hoctet : n.octet = m.octet := (List.cons.inj hbytes).1
      exact h n rfl (Mark.octet_injective hoctet)
  rw [hbytes, List.cons_append, Bytes.after?, if_neg hne]

theorem Spelled.split {us : List Token} {m : Mark} (h : Spelled (us ++ .mark m :: ts) s) :
    ∃ l r, s = l ++ m.octet :: r ∧ Spelled us l ∧ Spelled ts r := by
  induction us generalizing s with
  | nil =>
    obtain ⟨g, r, hg, rfl, -, hr, -⟩ := h.skip_cons
    exact ⟨g, r, rfl, .blank hg, hr⟩
  | cons u us ih =>
    obtain ⟨g, q, hg, rfl, -, hq, hapart⟩ := h.skip_cons
    obtain ⟨l, r, rfl, hl, hr⟩ := ih hq
    refine ⟨g ++ (u.bytes ++ l), r, by simp, .token hg (fun hu hfront => ?_) hl, hr⟩
    have hfront' : (us ++ Token.mark m :: ts).head?.any Token.isWord = true := by
      cases us with
      | nil => cases hfront
      | cons v us => exact hfront
    obtain ⟨b, q, hbq, hb⟩ := hapart hu hfront'
    cases l with
    | cons c l =>
      obtain rfl : c = b := by simpa using congrArg List.head? hbq
      exact ⟨c, l, rfl, hb⟩
    | nil =>
      -- then the mark itself would be white space
      have hmark : m.octet = b := by simpa using congrArg List.head? hbq
      exact absurd hmark.symm (ne_octet_of_mem_gapOctets hb m)

theorem Spelled.mem (h : Spelled ts s) {b : UInt8} (hb : b ∈ s) : b ∈ gapOctets ∨ ∃ t ∈ ts, b ∈ t.bytes := by
  induction h with
  | blank hg => exact .inl (hg b hb)
  | @token g r t ts hg _ _ ih =>
    rcases List.mem_append.1 hb with hb | hb
    · exact .inl (hg b hb)
    rcases List.mem_append.1 hb with hb | hb
    · exact .inr ⟨t, List.mem_cons_self, hb⟩
    · exact (ih hb).imp id fun ⟨u, hu, hbu⟩ => ⟨u, List.mem_cons_of_mem t hu, hbu⟩

/-- Octets of a class that no white space and no token of the text has do not occur in it. -/
theorem Spelled.not_mem (h : Spelled ts s) {b : UInt8} (hgap : b ∉ gapOctets) (hword : isWordByte b = false)
    (hmark : ∀ m, .mark m ∈ ts → m.octet ≠ b) : b ∉ s := by
  intro hb
  rcases h.mem hb with hb | ⟨t, ht, hb⟩
  · exact hgap hb
  · cases t with
    | word w =>
      have := w.isIdentifier.isWord b hb
      rw [hword] at this
      cases this
    | mark m => exact hmark m ht (List.mem_singleton.1 hb).symm

end Front

end ShaderForge
