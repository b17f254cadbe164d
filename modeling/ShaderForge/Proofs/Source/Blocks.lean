import ShaderForge.Proofs.Files.Path
import ShaderForge.Proofs.Source.Spelling

/-!
# ShaderForge.Proofs.Source.Blocks

Struct and function definitions as tokens, and what the scanners find in texts made of them.

* `matchesFrom`   — leftmost matches without overlap, for any pattern; both scanners are such.
* `matchesFrom_pass`, `matchesFrom_take` — such a scan goes over a token, or takes what begins with it.
* `Block`         — a struct with its fields, or a function without parameters and body.
* `functions_of_blocks`, `structs_of_blocks` — nothing is missed and nothing else is found.
-/

namespace ShaderForge

/-! ## Scans -/

section Scans

variable {α : Type}

/-- Leftmost matches of a pattern without overlap. The pattern sees the octet before it, the offset and the text,
and gives what it found with the text behind it. -/
def matchesFrom (find : Option UInt8 → Nat → Bytes → Option (α × Bytes)) :
    Nat → Option UInt8 → Nat → Bytes → List α
  | _, _, _, [] => []
  | skip + 1, _, offset, b :: s => matchesFrom find skip (some b) (offset + 1) s
  | 0, before, offset, b :: s =>
    match find before offset (b :: s) with
    | some (found, rest) => found :: matchesFrom find (s.length - rest.length) (some b) (offset + 1) s
    | none => matchesFrom find 0 (some b) (offset + 1) s

/-- Heads as a pattern. -/
def headMatch? (before : Option UInt8) (offset : Nat) (s : Bytes) : Option (Head × Bytes) :=
  (head? before offset s).map fun h => (h, h.inside)

theorem headsFrom_eq (skip : Nat) (before : Option UInt8) (offset : Nat) (s : Bytes) :
    headsFrom skip before offset s = matchesFrom headMatch? skip before offset s := by
  induction s generalizing skip before offset with
  | nil => simp [headsFrom, matchesFrom]
  | cons b s ih =>
    cases skip with
    | succ skip => rw [headsFrom, matchesFrom, ih]
    | zero =>
      rw [headsFrom, matchesFrom, headMatch?]
      cases head? before offset (b :: s) with
      | none => exact ih 0 (some b) (offset + 1)
      | some h => exact congrArg (h :: ·) (ih _ (some b) (offset + 1))

theorem structsFrom_eq (skip : Nat) (before : Option UInt8) (offset : Nat) (s : Bytes) :
    structsFrom skip before offset s = matchesFrom structBlock? skip before offset s := by
  induction s generalizing skip before offset with
  | nil => simp [structsFrom, matchesFrom]
  | cons b s ih =>
    cases skip with
    | succ skip => rw [structsFrom, matchesFrom, ih]
    | zero =>
      rw [structsFrom, matchesFrom]
      cases structBlock? before offset (b :: s) with
      | none => exact ih 0 (some b) (offset + 1)
      | some found => exact congrArg (found.1 :: ·) (ih _ (some b) (offset + 1))

/-- Matches begin where a word does, or at a closing angle bracket. -/
def BeginsWords (find : Option UInt8 → Nat → Bytes → Option (α × Bytes)) : Prop :=
  ∀ before offset b s r, find before offset (b :: s) = some r →
    b = octet '>' ∨ (isIdentifierStart b = true ∧ endsWord before = true)

/-- A word may begin at the front of the text, or none does. -/
def Fresh (before : Option UInt8) (s : Bytes) : Prop :=
  endsWord before = true ∨ ∀ b ∈ s.head?, isWordByte b = false

variable {find : Option UInt8 → Nat → Bytes → Option (α × Bytes)} {before : Option UInt8} {offset : Nat}

theorem matchesFrom_next {b : UInt8} {s : Bytes} (h : find before offset (b :: s) = none) :
    matchesFrom find 0 before offset (b :: s) = matchesFrom find 0 (some b) (offset + 1) s := by
  rw [matchesFrom, h]

variable (find before offset) in
theorem matchesFrom_skip (q : Bytes) (c : UInt8) (s : Bytes) :
    ∃ offset', matchesFrom find (q.length + 1) before offset (q ++ c :: s) =
      matchesFrom find 0 (some c) offset' s := by
  induction q generalizing before offset with
  | nil => exact ⟨offset + 1, rfl⟩
  | cons b q ih => exact ih (some b) (offset + 1)

variable (offset) in
theorem matchesFrom_gap (hfind : BeginsWords find) {g s : Bytes} (hg : IsGap g) (hfresh : Fresh before (g ++ s)) :
    ∃ before' offset', matchesFrom find 0 before offset (g ++ s) = matchesFrom find 0 before' offset' s ∧
      Fresh before' s := by
  induction g generalizing before offset with
  | nil => exact ⟨before, offset, rfl, hfresh⟩
  | cons b g ih =>
    obtain ⟨hword, -⟩ := gapOctet_class (hg b List.mem_cons_self)
    have hnone : find before offset (b :: (g ++ s)) = none := by
      refine Option.eq_none_iff_forall_ne_some.2 fun r hr => ?_
      rcases hfind _ _ _ _ _ hr with rfl | ⟨hstart, -⟩
      · exact absurd (hg _ List.mem_cons_self) (by decide)
      · rw [isWordByte_of_start hstart] at hword
        cases hword
    rw [List.cons_append, matchesFrom_next hnone]
    exact ih (offset + 1) (fun c hc => hg c (List.mem_cons_of_mem b hc)) (.inl (by simp [endsWord, hword]))

variable (offset) in
theorem matchesFrom_inside (hfind : BeginsWords find) {v : Bytes} (hv : IsWord v) (s : Bytes)
    (hbefore : endsWord before = false) :
    ∃ before' offset', matchesFrom find 0 before offset (v ++ s) = matchesFrom find 0 before' offset' s := by
  induction v generalizing before offset with
  | nil => exact ⟨before, offset, rfl⟩
  | cons b v ih =>
    have hword := hv b List.mem_cons_self
    have hnone : find before offset (b :: (v ++ s)) = none := by
      refine Option.eq_none_iff_forall_ne_some.2 fun r hr => ?_
      rcases hfind _ _ _ _ _ hr with rfl | ⟨-, hends⟩
      · exact absurd hword (by decide)
      · rw [hbefore] at hends
        cases hends
    rw [List.cons_append, matchesFrom_next hnone]
    exact ih (offset + 1) (fun c hc => hv c (List.mem_cons_of_mem b hc)) (by simp [endsWord, hword])

theorem matchesFrom_blank (hfind : BeginsWords find) {s : Bytes} (h : Spelled [] s) (hfresh : Fresh before s) :
    matchesFrom find 0 before offset s = [] := by
  cases h with
  | blank hg =>
    rw [← List.append_nil s] at hfresh ⊢
    obtain ⟨before', offset', heq, -⟩ := matchesFrom_gap offset hfind hg hfresh
    rw [heq, matchesFrom]

variable (offset) in
theorem matchesFrom_front (hfind : BeginsWords find) {t : Token} {ts : List Token} {s : Bytes}
    (h : Spelled (t :: ts) s) (hfresh : Fresh before s) :
    ∃ before' offset' r, Spelled ts r ∧ (t.isWord = true → Apart ts r ∧ endsWord before' = true) ∧
      matchesFrom find 0 before offset s = matchesFrom find 0 before' offset' (t.bytes ++ r) := by
  obtain ⟨g, r, hg, rfl, -, hr, hapart⟩ := h.skip_cons
  obtain ⟨before', offset', heq, hfresh'⟩ := matchesFrom_gap offset hfind hg hfresh
  refine ⟨before', offset', r, hr, fun hword => ⟨hapart hword, ?_⟩, heq⟩
  rcases hfresh' with hends | hfront
  · exact hends
  · obtain ⟨b, v, hbytes, -, -, hb⟩ := t.head_bytes
    rw [hword, hfront b (by simp [hbytes])] at hb
    cases hb

variable (offset) in
theorem matchesFrom_pass (hfind : BeginsWords find) {t : Token} {ts : List Token} {s : Bytes}
    (h : Spelled (t :: ts) s) (hfresh : Fresh before s)
    (hnone : ∀ w r before offset, t = .word w → Spelled ts r → Apart ts r →
      find before offset (w.bytes ++ r) = none) :
    ∃ before' offset' r, Spelled ts r ∧ Fresh before' r ∧
      matchesFrom find 0 before offset s = matchesFrom find 0 before' offset' r := by
  obtain ⟨before₁, offset₁, r, hr, hword, heq⟩ := matchesFrom_front offset hfind h hfresh
  rw [heq]
  cases t with
  | mark m =>
    have hoctet := m.octet_class.1
    have hmark : find before₁ offset₁ (m.octet :: r) = none := by
      refine Option.eq_none_iff_forall_ne_some.2 fun found hfound => ?_
      rcases hfind _ _ _ _ _ hfound with hangle | ⟨hstart, -⟩
      · revert hangle
        cases m <;> decide
      · rw [isWordByte_of_start hstart] at hoctet
        cases hoctet
    exact ⟨some m.octet, offset₁ + 1, r, hr, .inl (by simp [endsWord, hoctet]), matchesFrom_next hmark⟩
  | word w =>
    obtain ⟨hapart, -⟩ := hword rfl
    have hnone' := hnone w r before₁ offset₁ rfl hr hapart
    obtain ⟨b, v, hbytes, hb, hv⟩ := w.exists_cons
    simp only [Token.bytes, hbytes, List.cons_append] at hnone' ⊢
    rw [matchesFrom_next hnone']
    have hinside : endsWord (some b) = false := by simp [endsWord, isWordByte_of_start hb]
    obtain ⟨before₂, offset₂, heq₂⟩ := matchesFrom_inside (offset₁ + 1) hfind hv r hinside
    exact ⟨before₂, offset₂, r, hr, .inr (hr.ends hapart), heq₂⟩

variable (offset) in
/-- A scan takes the match that begins with a word, and goes on behind it. -/
theorem matchesFrom_take (hfind : BeginsWords find) {w : Word} {ts : List Token} {s : Bytes}
    (h : Spelled (.word w :: ts) s) (hfresh : Fresh before s) {Q : α → Bytes → Prop}
    (hfound : ∀ r before offset, Spelled ts r → Apart ts r → endsWord before = true →
      ∃ a q c rest, find before offset (w.bytes ++ r) = some (a, rest) ∧ r = q ++ c :: rest ∧
        isWordByte c = false ∧ Q a rest) :
    ∃ a before' offset' rest, Q a rest ∧ Fresh before' rest ∧
      matchesFrom find 0 before offset s = a :: matchesFrom find 0 before' offset' rest := by
  obtain ⟨before₁, offset₁, r, hr, hword, heq⟩ := matchesFrom_front offset hfind h hfresh
  obtain ⟨hapart, hends⟩ := hword rfl
  obtain ⟨a, q, c, rest, hmatch, rfl, hc, hQ⟩ := hfound r before₁ offset₁ hr hapart hends
  obtain ⟨b, v, hbytes, -, -⟩ := w.exists_cons
  obtain ⟨offset₂, hskip⟩ := matchesFrom_skip find (some b) (offset₁ + 1) (v ++ q) c rest
  refine ⟨a, some c, offset₂, rest, hQ, .inl (by simp [endsWord, hc]), ?_⟩
  have hlen : (v ++ (q ++ c :: rest)).length - rest.length = (v ++ q).length + 1 := by
    simp only [List.length_append, List.length_cons]
    omega
  rw [heq, Token.bytes, hbytes, List.cons_append, matchesFrom]
  rw [hbytes, List.cons_append] at hmatch
  simp only [hmatch, hlen]
  rw [← hskip, List.append_assoc]

end Scans

/-! ## Heads -/

theorem after?_angle {b : UInt8} (hb : b ≠ octet '>') (s : Bytes) : Bytes.after? ">" (b :: s) = none := by
  rw [show utf8 ">" = [octet '>'] from rfl, Bytes.after?, if_neg (Ne.symm hb)]

theorem beginsWords_headMatch? : BeginsWords headMatch? := by
  intro before offset b s r h
  by_cases hb : b = octet '>'
  · exact .inl hb
  · refine .inr ?_
    simp only [headMatch?, head?, typePart?, after?_angle hb] at h
    cases hends : endsWord before with
    | false => simp [hends] at h
    | true =>
      cases hstart : isIdentifierStart b with
      | false => simp [hends, identifier?, hstart] at h
      | true => exact ⟨rfl, rfl⟩

section Heads

variable {before : Option UInt8} {offset : Nat} {r : Bytes} {ts : List Token}

theorem typePart?_word (w : Word) (hr : ∀ b ∈ r.head?, isWordByte b = false) :
    typePart? before (w.bytes ++ r) =
      if endsWord before then (someSpace? r).map fun rest => (some w.bytes, rest) else none := by
  have hangle : Bytes.after? ">" (w.bytes ++ r) = none := by
    obtain ⟨b, v, hbytes, hb, -⟩ := w.exists_cons
    rw [hbytes]
    refine after?_angle ?_ _
    rintro rfl
    exact absurd hb (by decide)
  simp only [typePart?, hangle, identifier?_word w hr, Option.bind_eq_bind, Option.bind_some]
  split
  · cases someSpace? r <;> rfl
  · rfl

theorem nameParen?_none (h : Spelled ts r) (hts : ∀ n rest, ts ≠ .word n :: .mark .openParen :: rest) :
    nameParen? (skipLexSpace r) = none := by
  cases ts with
  | nil => rw [h.skip_nil]; rfl
  | cons t ts =>
    obtain ⟨g, q, -, -, hskip, hq, hapart⟩ := h.skip_cons
    rw [hskip, nameParen?]
    cases t with
    | mark m =>
      have hstart : isIdentifierStart m.octet = false := by cases m <;> decide
      rw [identifier?_none (by simpa [Token.bytes] using hstart)]
      rfl
    | word n =>
      rw [Token.bytes, identifier?_word n (hq.ends (hapart rfl))]
      simp only [Option.bind_eq_bind, Option.bind_some]
      rw [show utf8 "(" = [Mark.openParen.octet] from rfl]
      cases ts with
      | nil => rw [hq.skip_nil]; rfl
      | cons u us =>
        obtain ⟨-, q', -, -, hskip', -, -⟩ := hq.skip_cons
        rw [hskip', after?_mark_none]
        · rfl
        · rintro m rfl rfl
          exact hts n us rfl

theorem nameParen?_some {n : Word} (h : Spelled (.word n :: .mark .openParen :: ts) r) :
    ∃ q inside, nameParen? (skipLexSpace r) = some (n.bytes, inside) ∧
      r = q ++ Mark.openParen.octet :: inside ∧ Spelled ts inside := by
  obtain ⟨g, q, -, rfl, hskip, hq, hapart⟩ := h.skip_cons
  obtain ⟨g', inside, -, rfl, hskip', hinside, -⟩ := hq.skip_cons
  refine ⟨g ++ (n.bytes ++ g'), inside, ?_, by simp [Token.bytes], hinside⟩
  rw [hskip, nameParen?, Token.bytes, identifier?_word n (hq.ends (hapart rfl))]
  simp only [Option.bind_eq_bind, Option.bind_some, hskip']
  rw [show utf8 "(" = [Mark.openParen.octet] from rfl, Token.bytes, Bytes.after?_append]
  rfl

theorem headMatch?_none (w : Word) (h : Spelled ts r) (hapart : Apart ts r)
    (hts : ∀ n rest, ts ≠ .word n :: .mark .openParen :: rest) :
    headMatch? before offset (w.bytes ++ r) = none := by
  rw [headMatch?, head?, typePart?_word w (h.ends hapart)]
  split
  · rcases someSpace?_cases r with hspace | hspace
    · rw [hspace]; rfl
    · rw [hspace]
      simp [nameParen?_none h hts]
  · rfl

theorem headMatch?_some (w : Word) {n : Word} (h : Spelled (.word n :: .mark .openParen :: ts) r)
    (hapart : Apart (.word n :: .mark .openParen :: ts) r) (hends : endsWord before = true) :
    ∃ a q c rest, headMatch? before offset (w.bytes ++ r) = some (a, rest) ∧ r = q ++ c :: rest ∧
      isWordByte c = false ∧
        (a.typeWord = some w.bytes ∧ a.name = n.bytes ∧ Spelled ts a.inside ∧ a.inside = rest) := by
  obtain ⟨q, inside, hname, hr, hinside⟩ := nameParen?_some h
  refine ⟨⟨some w.bytes, n.bytes, offset + ((w.bytes ++ r).length - (skipLexSpace r).length), inside⟩, q,
    Mark.openParen.octet, inside, ?_, hr, by decide, rfl, rfl, hinside, rfl⟩
  rw [headMatch?, head?, typePart?_word w (h.ends hapart), hends, someSpace?_of_apart hapart]
  simp [hname]

theorem isDefinition_of_spelled {h : Head} {w : Word} (htype : h.typeWord = some w.bytes)
    (hw : w.bytes ∉ nonTypeWords)
    (hinside : Spelled (.mark .closeParen :: .mark .openBrace :: ts) h.inside) : h.isDefinition = true := by
  obtain ⟨g, q, hg, hq, -, hbody, -⟩ := hinside.skip_cons
  obtain ⟨g', rest, hg', rfl, hskip, -, -⟩ := hbody.skip_cons
  have hclose : closeParens? 1 h.inside = some (g' ++ (Token.bytes (.mark .openBrace) ++ rest)) := by
    rw [hq]
    clear hq hinside
    induction g with
    | nil => rfl
    | cons b g ih =>
      have hmark := ne_octet_of_mem_gapOctets (hg b List.mem_cons_self)
      have hopen : b ≠ octet '(' := hmark .openParen
      have hclose : b ≠ octet ')' := hmark .closeParen
      rw [List.cons_append, closeParens?, if_neg hopen, if_neg hclose]
      exact ih fun c hc => hg c (List.mem_cons_of_mem b hc)
  have hsemantic : skipSemantic (g' ++ (Token.bytes (.mark .openBrace) ++ rest)) =
      g' ++ (Token.bytes (.mark .openBrace) ++ rest) := by
    rw [skipSemantic, hskip, show utf8 ":" = [Mark.colon.octet] from rfl, after?_mark_none]
    rintro n hn rfl
    cases hn
  have hspace : ∀ b ∈ g', isBodySpace b = true := fun b hb => (gapOctet_class (hg' b hb)).2.2.1
  have hopened : ((skipSemantic (g' ++ (Token.bytes (.mark .openBrace) ++ rest))).dropWhile isBodySpace).head? =
      some (octet '\x7b') := by
    rw [hsemantic, List.dropWhile_append_of_pos hspace]
    rfl
  rw [Head.isDefinition, htype, hclose]
  simp [hopened, hw]

end Heads

/-! ## Structs -/

def structWord : Word := ⟨utf8 "struct", by decide⟩

section Structs

variable {before : Option UInt8} {offset : Nat} {r : Bytes} {ts : List Token}

theorem beginsWords_structBlock? : BeginsWords structBlock? := by
  intro before offset b s r h
  refine .inr ?_
  cases hends : endsWord before with
  | false => simp [structBlock?, hends] at h
  | true =>
    refine ⟨?_, rfl⟩
    simp only [structBlock?, hends, if_true, Option.bind_eq_bind, Option.bind_eq_some_iff] at h
    obtain ⟨rest, hafter, -⟩ := h
    have hs := Bytes.eq_append_of_after? hafter
    obtain rfl : b = octet 's' := (List.cons.inj hs).1
    decide

/-- Only the word `struct` begins a struct: a longer word that begins so is another word. -/
theorem structBlock?_none {w : Word} (hw : w.bytes ≠ structWord.bytes) (h : Spelled ts r) (hapart : Apart ts r) :
    structBlock? before offset (w.bytes ++ r) = none := by
  rw [structBlock?]
  split
  · cases hafter : Bytes.after? "struct" (w.bytes ++ r) with
    | none => rfl
    | some x =>
      cases hspace : someSpace? x with
      | none => simp [hspace]
      | some y =>
        have hx : ∀ b ∈ x.head?, isWordByte b = false := by
          intro b hb
          cases hbword : isWordByte b with
          | false => rfl
          | true =>
            cases x with
            | nil => cases hb
            | cons c x =>
              obtain rfl : c = b := by simpa using hb
              simp [someSpace?, (wordByte_class c hbword).1] at hspace
        have hread := identifier?_word w (h.ends hapart)
        have hstruct : identifier? (utf8 "struct" ++ x) = some (utf8 "struct", x) := identifier?_word structWord hx
        rw [Bytes.eq_append_of_after? hafter, hstruct] at hread
        exact absurd (congrArg Prod.fst (Option.some.inj hread)).symm hw
  · rfl

theorem structBlock?_some {name : Word} {body : List Token} (hbody : ∀ m, .mark m ∈ body → isBrace m.octet = false)
    (h : Spelled (.word name :: .mark .openBrace :: (body ++ .mark .closeBrace :: .mark .semicolon :: ts)) r)
    (hapart : Apart (.word name :: .mark .openBrace :: (body ++ .mark .closeBrace :: .mark .semicolon :: ts)) r)
    (hends : endsWord before = true) :
    ∃ b q c rest, structBlock? before offset (structWord.bytes ++ r) = some (b, rest) ∧ r = q ++ c :: rest ∧
      isWordByte c = false ∧ (b.name = name.bytes ∧ Spelled body b.body ∧ Spelled ts rest) := by
  obtain ⟨g, r₁, -, hr, hskip, hr₁, hapart₁⟩ := h.skip_cons
  obtain ⟨g₁, r₂, -, hg₁, hskip₁, hr₂, -⟩ := hr₁.skip_cons
  obtain ⟨l, r₃, rfl, hl, hr₃⟩ := hr₂.split
  obtain ⟨g₂, rest, -, hg₂, hskip₂, hrest, -⟩ := hr₃.skip_cons
  have hbrace : ∀ b ∈ l, (!isBrace b) = true := by
    intro b hb
    rw [Bool.not_eq_true']
    rcases hl.mem hb with hb | ⟨t, ht, hb⟩
    · have hmark := ne_octet_of_mem_gapOctets hb
      simpa [isBrace] using ⟨hmark .openBrace, hmark .closeBrace⟩
    · cases t with
      | mark m =>
        obtain rfl := List.mem_singleton.1 hb
        exact hbody m ht
      | word w =>
        have hword := w.isIdentifier.isWord b hb
        cases hb' : isBrace b with
        | false => rfl
        | true =>
          simp only [isBrace, Bool.or_eq_true, decide_eq_true_eq] at hb'
          rcases hb' with rfl | rfl <;> exact absurd hword (by decide)
  have htake : (l ++ Mark.closeBrace.octet :: r₃).takeWhile (fun b => !isBrace b) = l :=
    Bytes.takeWhile_front hbrace (by intro b hb; cases hb; rfl)
  refine ⟨⟨name.bytes, offset + ((structWord.bytes ++ r).length - (skipLexSpace r).length), l,
    offset + ((structWord.bytes ++ r).length - (l ++ Mark.closeBrace.octet :: r₃).length)⟩,
    g ++ (name.bytes ++ (g₁ ++ Mark.openBrace.octet :: (l ++ Mark.closeBrace.octet :: g₂))),
    Mark.semicolon.octet, rest, ?_, ?_, by decide, rfl, hl, hrest⟩
  · have hafter : Bytes.after? "struct" (structWord.bytes ++ r) = some r := Bytes.after?_append (utf8 "struct") r
    simp only [structBlock?, hends, if_true, hafter, Option.bind_eq_bind, Option.bind_some,
      someSpace?_of_apart hapart]
    simp only [hskip, Token.bytes, identifier?_word name (hr₁.ends (hapart₁ rfl)), Option.bind_some, hskip₁]
    simp only [show Bytes.after? "\x7b" ([Mark.openBrace.octet] ++ (l ++ Mark.closeBrace.octet :: r₃)) =
      some (l ++ Mark.closeBrace.octet :: r₃) from rfl, Option.bind_some, htake, List.drop_left]
    simp only [show Bytes.after? "\x7d" (Mark.closeBrace.octet :: r₃) = some r₃ from rfl, Option.bind_some, hskip₂,
      Token.bytes, show Bytes.after? ";" ([Mark.semicolon.octet] ++ rest) = some rest from rfl]
    rfl
  · rw [hr, hg₁, hg₂]
    simp [Token.bytes]

end Structs

/-! ## Blocks -/

/-- A field as a struct declares it: `type name` or `type name : semantic`. -/
structure Declaration where
  type : Word
  name : Word
  semantic : Option Word := none

def Declaration.tokens (d : Declaration) : List Token :=
  .word d.type :: .word d.name ::
    match d.semantic with
    | none => []
    | some semantic => [.mark .colon, .word semantic]

def bodyTokens (ds : List Declaration) : List Token := ds.flatMap fun d => d.tokens ++ [.mark .semicolon]

def resultWord : Word := ⟨utf8 "float4", by decide⟩

inductive Block where
  | struct (name : Word) (fields : List Declaration)
  | function (entry : Word)

namespace Block

def tokens : Block → List Token
  | .struct name fields =>
    .word structWord :: .word name :: .mark .openBrace ::
      (bodyTokens fields ++ [.mark .closeBrace, .mark .semicolon])
  | .function entry =>
    [.word resultWord, .word entry, .mark .openParen, .mark .closeParen, .mark .openBrace, .mark .closeBrace]

def function? : Block → Option Word
  | .struct _ _ => none
  | .function entry => some entry

def struct? : Block → Option (Word × List Declaration)
  | .struct name fields => some (name, fields)
  | .function _ => none

end Block

theorem mark_mem_bodyTokens {ds : List Declaration} {m : Mark} (h : .mark m ∈ bodyTokens ds) :
    m = .colon ∨ m = .semicolon := by
  obtain ⟨d, -, hd⟩ := List.mem_flatMap.1 h
  rcases List.mem_append.1 hd with hd | hd
  · unfold Declaration.tokens at hd
    split at hd <;> simp_all
  · simp_all

/-! ## What the scanners find -/

section Found

variable {before : Option UInt8} (offset : Nat) {s : Bytes} {ts us : List Token}

/-- Without an opening parenthesis there is no head, and a mark at the end keeps the tokens behind out of it. -/
theorem heads_pass {m : Mark} (hus : .mark .openParen ∉ us) (hm : m ≠ .openParen)
    (h : Spelled (us ++ .mark m :: ts) s) (hfresh : Fresh before s) :
    ∃ before' offset' r, Spelled ts r ∧ Fresh before' r ∧
      matchesFrom headMatch? 0 before offset s = matchesFrom headMatch? 0 before' offset' r := by
  induction us generalizing before offset s with
  | nil => exact matchesFrom_pass offset beginsWords_headMatch? h hfresh fun _ _ _ _ ht => by cases ht
  | cons u us ih =>
    have hts : ∀ n rest, us ++ .mark m :: ts ≠ .word n :: .mark .openParen :: rest := by
      intro n rest heq
      match us, heq with
      | [_], heq =>
        cases heq
        exact hm rfl
      | _ :: _ :: _, heq =>
        cases heq
        exact hus (by simp)
    obtain ⟨before₁, offset₁, r, hr, hfresh₁, heq⟩ := matchesFrom_pass offset beginsWords_headMatch? h
      hfresh fun w r before offset _ hr hapart => headMatch?_none w hr hapart hts
    rw [heq]
    exact ih offset₁ (fun hmem => hus (List.mem_cons_of_mem u hmem)) hr hfresh₁

theorem heads_of_blocks {bs : List Block} (h : Spelled (bs.flatMap Block.tokens) s) (hfresh : Fresh before s) :
    (∀ f ∈ matchesFrom headMatch? 0 before offset s, f.isDefinition = true) ∧
      (matchesFrom headMatch? 0 before offset s).map Head.name = (bs.filterMap Block.function?).map Word.bytes := by
  induction bs generalizing before offset s with
  | nil =>
    rw [matchesFrom_blank beginsWords_headMatch? h hfresh]
    exact ⟨by simp, rfl⟩
  | cons b bs ih =>
    rw [List.flatMap_cons] at h
    cases b with
    | struct name fields =>
      have hbody : .mark .openParen ∉
          Token.word structWord :: .word name :: .mark .openBrace :: (bodyTokens fields ++ [.mark .closeBrace]) := by
        intro hmem
        have hparen : .mark .openParen ∈ bodyTokens fields := by simpa using hmem
        rcases mark_mem_bodyTokens hparen with hm | hm <;> cases hm
      have h' : Spelled ((.word structWord :: .word name :: .mark .openBrace ::
          (bodyTokens fields ++ [.mark .closeBrace])) ++ .mark .semicolon :: bs.flatMap Block.tokens) s := by
        simpa [Block.tokens] using h
      obtain ⟨before', offset', r, hr, hfresh', heq⟩ := heads_pass offset hbody (by decide) h' hfresh
      rw [heq]
      exact ih offset' hr hfresh'
    | function entry =>
      obtain ⟨f, before₁, offset₁, rest, ⟨htype, hname, hinside, rfl⟩, hfresh₁, heq⟩ :=
        matchesFrom_take offset beginsWords_headMatch? h hfresh fun r before offset hr hapart hends =>
          headMatch?_some resultWord hr hapart hends
      have hdefinition := isDefinition_of_spelled htype (by decide) hinside
      have hempty : .mark .openParen ∉ [Token.mark .closeParen, .mark .openBrace] := by simp
      obtain ⟨before₂, offset₂, r, hr, hfresh₂, heq₂⟩ := heads_pass offset₁ hempty (by decide) hinside hfresh₁
      obtain ⟨hall, hnames⟩ := ih offset₂ hr hfresh₂
      rw [heq, heq₂]
      refine ⟨fun f' hf' => ?_, by simp [hname, hnames, Block.function?]⟩
      rcases List.mem_cons.1 hf' with rfl | hf'
      · exact hdefinition
      · exact hall f' hf'

theorem functions_of_blocks {bs : List Block} (h : Spelled (bs.flatMap Block.tokens) s) :
    (functions s).map Head.name = (bs.filterMap Block.function?).map Word.bytes := by
  have hfresh : Fresh none s := .inl rfl
  obtain ⟨hall, hnames⟩ := heads_of_blocks 0 h hfresh
  rw [functions, headsFrom_eq, List.filter_eq_self.2 hall, hnames]

theorem structs_pass (hus : ∀ w, .word w ∈ us → w.bytes ≠ structWord.bytes) (h : Spelled (us ++ ts) s)
    (hfresh : Fresh before s) :
    ∃ before' offset' r, Spelled ts r ∧ Fresh before' r ∧
      matchesFrom structBlock? 0 before offset s = matchesFrom structBlock? 0 before' offset' r := by
  induction us generalizing before offset s with
  | nil => exact ⟨before, offset, s, h, hfresh, rfl⟩
  | cons u us ih =>
    obtain ⟨before₁, offset₁, r, hr, hfresh₁, heq⟩ := matchesFrom_pass offset beginsWords_structBlock? h
      hfresh fun w r before offset hu hr hapart => structBlock?_none (hus w (hu ▸ List.mem_cons_self)) hr hapart
    rw [heq]
    exact ih offset₁ (fun w hw => hus w (List.mem_cons_of_mem u hw)) hr hfresh₁

def StructBlock.Reads (b : StructBlock) (d : Word × List Declaration) : Prop :=
  b.name = d.1.bytes ∧ Spelled (bodyTokens d.2) b.body

theorem structBlocks_of_blocks {bs : List Block} (hbs : ∀ w, .function w ∈ bs → w.bytes ≠ structWord.bytes)
    (h : Spelled (bs.flatMap Block.tokens) s) (hfresh : Fresh before s) :
    List.Forall₂ StructBlock.Reads (matchesFrom structBlock? 0 before offset s) (bs.filterMap Block.struct?) := by
  induction bs generalizing before offset s with
  | nil =>
    rw [matchesFrom_blank beginsWords_structBlock? h hfresh]
    exact .nil
  | cons b bs ih =>
    rw [List.flatMap_cons] at h
    have hrest : ∀ w, .function w ∈ bs → w.bytes ≠ structWord.bytes := fun w hw => hbs w (List.mem_cons_of_mem b hw)
    cases b with
    | struct name fields =>
      have hbody : ∀ m, .mark m ∈ bodyTokens fields → isBrace m.octet = false := by
        intro m hm
        rcases mark_mem_bodyTokens hm with rfl | rfl <;> decide
      have h' : Spelled (.word structWord :: .word name :: .mark .openBrace ::
          (bodyTokens fields ++ .mark .closeBrace :: .mark .semicolon :: bs.flatMap Block.tokens)) s := by
        simpa [Block.tokens] using h
      obtain ⟨b, before₁, offset₁, rest, ⟨hname, hfields, hts⟩, hfresh₁, heq⟩ :=
        matchesFrom_take offset beginsWords_structBlock? h' hfresh fun r before offset hr hapart hends =>
          structBlock?_some hbody hr hapart hends
      rw [heq]
      exact .cons ⟨hname, hfields⟩ (ih offset₁ hrest hts hfresh₁)
    | function entry =>
      have hwords : ∀ w, .word w ∈ (Block.function entry).tokens → w.bytes ≠ structWord.bytes := by
        intro w hw
        have hcases : w = resultWord ∨ w = entry := by simpa [Block.tokens] using hw
        rcases hcases with rfl | rfl
        · decide
        · exact hbs w List.mem_cons_self
      obtain ⟨before', offset', r, hr, hfresh', heq⟩ := structs_pass offset hwords h hfresh
      rw [heq]
      exact ih offset' hrest hr hfresh'

theorem structs_of_blocks {bs : List Block} (hbs : ∀ w, .function w ∈ bs → w.bytes ≠ structWord.bytes)
    (h : Spelled (bs.flatMap Block.tokens) s) :
    List.Forall₂ StructBlock.Reads (structs s) (bs.filterMap Block.struct?) := by
  rw [structs, structsFrom_eq]
  exact structBlocks_of_blocks 0 hbs h (.inl rfl)

end Found

end ShaderForge
