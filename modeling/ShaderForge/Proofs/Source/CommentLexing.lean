import ShaderForge.Proofs.Source.Tokens

/-!
# ShaderForge.Proofs.Source.CommentLexing

Comments become blanks in three ways: by the recursion that is run, by a lexer that goes on octet by octet, and by
a loop that overwrites the text in place and jumps behind each comment.

* `CommentLexer.run`   — the lexer; `CommentLexer.run_eq` ties it to the recursion.
* `overwriteComments`  — the loop; `overwritten` does so by induction on what it has not yet passed.
* `not_opensComment_of_suffix` — no comment begins anywhere in what is left.
* `comments_lexed`     — the three agree, and what follows for the text that is left.
-/

namespace ShaderForge

/-! ## Where comments begin -/

abbrev Bytes.star : UInt8 := 0x2A

/-- A comment begins at the front, if that is outside of comments. -/
def OpensComment (s : Bytes) : Prop := utf8 "//" <+: s ∨ utf8 "/*" <+: s

instance (s : Bytes) : Decidable (OpensComment s) := inferInstanceAs (Decidable (_ ∨ _))

theorem opensComment_cons_iff {b : UInt8} {s : Bytes} :
    OpensComment (b :: s) ↔ b = Bytes.slash ∧ (s.head? = some Bytes.slash ∨ s.head? = some 0x2A) := by
  have hline : utf8 "//" = [Bytes.slash, Bytes.slash] := by decide
  have hblock : utf8 "/*" = [Bytes.slash, 0x2A] := by decide
  rw [OpensComment, hline, hblock]
  cases s with
  | nil => simp
  | cons c s => simp [eq_comm, and_or_left]

theorem blankComments_cons {b : UInt8} {s : Bytes} (h : ¬ OpensComment (b :: s)) :
    blankComments (b :: s) = b :: blankComments s := by
  rw [opensComment_cons_iff, not_and, not_or] at h
  unfold blankComments
  rw [blankFrom]
  · rintro s' rfl rfl
    exact (h rfl).1 rfl
  · rintro s' rfl rfl
    exact (h rfl).2 rfl

theorem not_opensComment {b : UInt8} (hb : b ≠ Bytes.slash) (s : Bytes) : ¬ OpensComment (b :: s) :=
  fun h => hb (opensComment_cons_iff.1 h).1

/-! ## Octet by octet -/

/-- Where the lexer is: in code or in a comment of either kind, and whether the second octet of a mark is to come. -/
structure CommentLexer where
  mode : CommentMode
  midMark : Bool := false

namespace CommentLexer

/-- What an octet does, seen with the one behind it; and whether it belongs to a comment. -/
def step (lexer : CommentLexer) (b : UInt8) (next : Option UInt8) : CommentLexer × Bool :=
  if lexer.midMark then (⟨lexer.mode, false⟩, true)
  else match lexer.mode with
    | .code =>
      if b = Bytes.slash ∧ next = some Bytes.slash then (⟨.line, true⟩, true)
      else if b = Bytes.slash ∧ next = some Bytes.star then (⟨.block, true⟩, true)
      else (⟨.code, false⟩, false)
    | .line => if b = Bytes.lf then (⟨.code, false⟩, false) else (⟨.line, false⟩, true)
    | .block =>
      if b = Bytes.star ∧ next = some Bytes.slash then (⟨.code, true⟩, true) else (⟨.block, false⟩, true)

/-- A space for every octet of a comment but line feeds, and all else as it is. -/
def run (lexer : CommentLexer) : Bytes → Bytes
  | [] => []
  | b :: s =>
    let (lexer', inComment) := lexer.step b s.head?
    (if inComment = true ∧ b ≠ Bytes.lf then Bytes.space else b) :: lexer'.run s

theorem run_eq (mode : CommentMode) (s : Bytes) : run ⟨mode, false⟩ s = blankFrom mode s := by
  fun_induction blankFrom mode s with
  | case1 => rfl
  | case2 s ih => exact congrArg (Bytes.space :: Bytes.space :: ·) ih
  | case3 s ih => exact congrArg (Bytes.space :: Bytes.space :: ·) ih
  | case4 b s hline hblock ih =>
    have hstep : step ⟨.code, false⟩ b s.head? = (⟨.code, false⟩, false) := by
      cases s with
      | nil => simp [step]
      | cons c s =>
        have hslash : ¬ (b = Bytes.slash ∧ c = Bytes.slash) := fun h => hline s h.1 (by rw [h.2])
        have hstar : ¬ (b = Bytes.slash ∧ c = Bytes.star) := fun h => hblock s h.1 (by rw [h.2])
        simp [step, hslash, hstar]
    simp [run, hstep, ih]
  | case5 s ih => exact congrArg (Bytes.lf :: ·) ih
  | case6 b s hb ih => simp [run, step, hb, ih]
  | case7 s ih => exact congrArg (Bytes.space :: Bytes.space :: ·) ih
  | case8 b s hclose ih =>
    have hstep : step ⟨.block, false⟩ b s.head? = (⟨.block, false⟩, true) := by
      cases s with
      | nil => simp [step]
      | cons c s =>
        have hmark : ¬ (b = Bytes.star ∧ c = Bytes.slash) := fun h => hclose s h.1 (by rw [h.2])
        simp [step, hmark]
    simp only [run, hstep, ih]
    by_cases hb : b = Bytes.lf <;> simp [hb]

end CommentLexer

/-! ## In place -/

/-- Overwrites a comment up to the end of its line; with the place at which it stops. -/
def overwriteLine (b : Bytes) (i : Nat) : Bytes × Nat :=
  if i < b.length ∧ b[i]? ≠ some Bytes.lf then overwriteLine (b.set i Bytes.space) (i + 1) else (b, i)
termination_by b.length - i
decreasing_by
  simp only [List.length_set]
  omega

/-- Overwrites a comment up to its closing mark; with the place of the last octet of that mark. -/
def overwriteBlock (b : Bytes) (i : Nat) : Bytes × Nat :=
  if i < b.length then
    if b[i]? = some Bytes.star ∧ b[i + 1]? = some Bytes.slash then
      ((b.set i Bytes.space).set (i + 1) Bytes.space, i + 1)
    else if b[i]? = some Bytes.lf then overwriteBlock b (i + 1)
    else overwriteBlock (b.set i Bytes.space) (i + 1)
  else (b, i)
termination_by b.length - i
decreasing_by
  · omega
  · simp only [List.length_set]
    omega

theorem overwriteLine_ahead (b : Bytes) (i : Nat) :
    (overwriteLine b i).1.length = b.length ∧ i ≤ (overwriteLine b i).2 := by
  fun_induction overwriteLine b i with
  | case1 b i h ih =>
    rw [List.length_set] at ih
    exact ⟨ih.1, by omega⟩
  | case2 b i h => exact ⟨rfl, Nat.le_refl i⟩

theorem overwriteBlock_ahead (b : Bytes) (i : Nat) :
    (overwriteBlock b i).1.length = b.length ∧ i ≤ (overwriteBlock b i).2 := by
  fun_induction overwriteBlock b i with
  | case1 b i h hclose => exact ⟨by simp, Nat.le_succ i⟩
  | case2 b i h hclose hlf ih => exact ⟨ih.1, by omega⟩
  | case3 b i h hclose hlf ih =>
    rw [List.length_set] at ih
    exact ⟨ih.1, by omega⟩
  | case4 b i h => exact ⟨rfl, Nat.le_refl i⟩

/-- The loop over the octets of a text, from `i` on. -/
def overwriteComments (b : Bytes) (i : Nat) : Bytes :=
  if i < b.length then
    if b[i]? = some Bytes.slash ∧ b[i + 1]? = some Bytes.slash then
      overwriteComments (overwriteLine b i).1 ((overwriteLine b i).2 + 1)
    else if b[i]? = some Bytes.slash ∧ b[i + 1]? = some Bytes.star then
      let opened := (b.set i Bytes.space).set (i + 1) Bytes.space
      overwriteComments (overwriteBlock opened (i + 2)).1 ((overwriteBlock opened (i + 2)).2 + 1)
    else overwriteComments b (i + 1)
  else b
termination_by b.length - i
decreasing_by
  · have h := overwriteLine_ahead b i
    omega
  · have h := overwriteBlock_ahead ((b.set i Bytes.space).set (i + 1) Bytes.space) (i + 2)
    simp only [List.length_set] at h
    omega
  · omega

/-! The text is seen as what has been passed and what is to come. -/

variable {done rest s : Bytes} {c : UInt8}

theorem getElem?_passed (done rest : Bytes) : (done ++ rest)[done.length]? = rest.head? := by
  cases rest <;> simp

theorem getElem?_passed_succ (done rest : Bytes) : (done ++ c :: rest)[done.length + 1]? = rest.head? := by
  cases rest <;> simp

theorem set_passed (done rest : Bytes) (c v : UInt8) :
    (done ++ c :: rest).set done.length v = (done ++ [v]) ++ rest := by
  simp

/-- The loop does on what is to come what the lexer does. -/
def Overwritten (rest : Bytes) : Prop :=
  ∀ done : Bytes, overwriteComments (done ++ rest) done.length = done ++ blankFrom .code rest

theorem blankFrom_line (hc : c ≠ Bytes.lf) (s : Bytes) :
    blankFrom .line (c :: s) = Bytes.space :: blankFrom .line s := by
  rw [blankFrom, if_neg hc]

theorem overwriteLine_eq (h : ∀ t, t.length < s.length → Overwritten t) (done : Bytes) :
    overwriteComments (overwriteLine (done ++ s) done.length).1 ((overwriteLine (done ++ s) done.length).2 + 1) =
      done ++ blankFrom .line s := by
  induction s generalizing done with
  | nil =>
    rw [overwriteLine, if_neg (by simp), overwriteComments, if_neg (by simp)]
    simp [blankFrom]
  | cons c s ih =>
    rw [overwriteLine, getElem?_passed]
    by_cases hc : c = Bytes.lf
    · have hnext := h s (Nat.lt_succ_self _) (done ++ [c])
      rw [if_neg (by simp [hc]), blankFrom, if_pos hc]
      simpa using hnext
    · have hrest := ih (fun t ht => h t (Nat.lt_succ_of_lt ht)) (done ++ [Bytes.space])
      rw [if_pos (by simp [hc]), set_passed, blankFrom_line hc]
      simpa using hrest

theorem overwriteBlock_eq (h : ∀ t, t.length < s.length → Overwritten t) (done : Bytes) :
    overwriteComments (overwriteBlock (done ++ s) done.length).1 ((overwriteBlock (done ++ s) done.length).2 + 1) =
      done ++ blankFrom .block s := by
  induction s generalizing done with
  | nil =>
    rw [overwriteBlock, if_neg (by simp), overwriteComments, if_neg (by simp)]
    simp [blankFrom]
  | cons c s ih =>
    have hrest := ih fun t ht => h t (Nat.lt_succ_of_lt ht)
    rw [overwriteBlock, if_pos (by simp), getElem?_passed, getElem?_passed_succ, set_passed, List.head?_cons]
    by_cases hclose : some c = some Bytes.star ∧ s.head? = some Bytes.slash
    · rw [if_pos hclose]
      obtain ⟨hc, hs⟩ := hclose
      obtain ⟨t, rfl⟩ := List.head?_eq_some_iff.1 hs
      obtain rfl := Option.some.inj hc
      have hnext := h t (by simp only [List.length_cons]; omega) (done ++ [Bytes.space] ++ [Bytes.space])
      rw [blankFrom]
      simpa using hnext
    rw [if_neg hclose, blankFrom]
    · by_cases hc : c = Bytes.lf
      · have hnext := hrest (done ++ [c])
        rw [if_pos (congrArg some hc), if_pos hc]
        simpa using hnext
      · have hnext := hrest (done ++ [Bytes.space])
        rw [if_neg (by simpa using hc), if_neg hc]
        simpa using hnext
    · rintro t rfl rfl
      exact hclose ⟨rfl, rfl⟩

theorem overwritten (rest : Bytes) : Overwritten rest := by
  induction hn : rest.length using Nat.strongRecOn generalizing rest with
  | ind n ih =>
    -- an inner loop comes out anywhere behind its comment, so what is to come is any shorter text
    have hshort : ∀ t, t.length < rest.length → Overwritten t := fun t ht => ih t.length (hn ▸ ht) t rfl
    intro done
    cases rest with
    | nil =>
      rw [overwriteComments, if_neg (by simp)]
      simp [blankFrom]
    | cons c s =>
      rw [overwriteComments, if_pos (by simp), getElem?_passed, getElem?_passed_succ, List.head?_cons]
      by_cases hline : some c = some Bytes.slash ∧ s.head? = some Bytes.slash
      · rw [if_pos hline, overwriteLine_eq hshort]
        obtain ⟨hc, hs⟩ := hline
        obtain ⟨t, rfl⟩ := List.head?_eq_some_iff.1 hs
        obtain rfl := Option.some.inj hc
        rw [blankFrom_line (by decide), blankFrom_line (by decide)]
        rfl
      rw [if_neg hline]
      by_cases hblock : some c = some Bytes.slash ∧ s.head? = some Bytes.star
      · rw [if_pos hblock]
        obtain ⟨hc, hs⟩ := hblock
        obtain ⟨t, rfl⟩ := List.head?_eq_some_iff.1 hs
        obtain rfl := Option.some.inj hc
        have hopened := overwriteBlock_eq (s := t) (fun u hu => hshort u (by simp only [List.length_cons]; omega))
          (done ++ [Bytes.space] ++ [Bytes.space])
        have htext : ((done ++ Bytes.slash :: Bytes.star :: t).set done.length Bytes.space).set (done.length + 1)
            Bytes.space = done ++ [Bytes.space] ++ [Bytes.space] ++ t := by simp
        rw [show (done ++ [Bytes.space] ++ [Bytes.space]).length = done.length + 2 by simp] at hopened
        simp only [htext, hopened, blankFrom]
        simp
      · have hnext := hshort s (Nat.lt_succ_self _) (done ++ [c])
        rw [if_neg hblock, blankFrom]
        · simpa using hnext
        · rintro t rfl rfl
          exact hline ⟨rfl, rfl⟩
        · rintro t rfl rfl
          exact hblock ⟨rfl, rfl⟩

/-! ## What is left -/

/-- No comment begins in what is left. -/
theorem not_opensComment_of_suffix {mode : CommentMode} {t : Bytes} (h : t <:+ blankFrom mode s) :
    ¬ OpensComment t := by
  have hnil : ¬ OpensComment [] := by decide
  have hcons : ∀ {b : UInt8} {u : Bytes}, b ≠ Bytes.slash → (t <:+ u → ¬ OpensComment t) → t <:+ b :: u →
      ¬ OpensComment t := by
    intro b u hb hu h
    rcases List.suffix_cons_iff.1 h with rfl | h
    · exact not_opensComment hb u
    · exact hu h
  fun_induction blankFrom mode s with
  | case1 => rwa [List.suffix_nil.1 h]
  | case2 s ih => exact hcons (by decide) (hcons (by decide) ih) h
  | case3 s ih => exact hcons (by decide) (hcons (by decide) ih) h
  | case4 b s hline hblock ih =>
    rcases List.suffix_cons_iff.1 h with rfl | h
    · rw [opensComment_cons_iff]
      rintro ⟨rfl, hmark⟩
      -- the octet behind the slash is left as it was, so a comment began here before
      have hrelated := blankFrom_related .code s
      generalize blankFrom .code s = u at hrelated hmark
      cases hrelated with
      | nil => simp at hmark
      | cons hdimmed _ =>
        simp only [List.head?_cons, Option.some.injEq] at hmark
        rcases hmark with rfl | rfl
        · exact hline _ rfl (congrArg (· :: _) (hdimmed.resolve_right fun h => absurd h.1 (by decide)).symm)
        · exact hblock _ rfl (congrArg (· :: _) (hdimmed.resolve_right fun h => absurd h.1 (by decide)).symm)
    · exact ih h
  | case5 s ih => exact hcons (by decide) ih h
  | case6 b s hb ih => exact hcons (by decide) ih h
  | case7 s ih => exact hcons (by decide) (hcons (by decide) ih) h
  | case8 b s hclose ih =>
    refine hcons ?_ ih h
    split
    · rename_i hb
      rw [hb]
      decide
    · decide

theorem blankComments_of_free (h : ∀ t, t <:+ s → ¬ OpensComment t) : blankComments s = s := by
  induction s with
  | nil => rfl
  | cons b s ih =>
    rw [blankComments_cons (h _ (List.suffix_refl _)), ih fun t ht => h t (ht.trans (List.suffix_cons b s))]

theorem lf_of_dimmed {t : Bytes} (h : List.Forall₂ Dimmed s t) (i : Nat) :
    t[i]? = some Bytes.lf ↔ s[i]? = some Bytes.lf := by
  induction h generalizing i with
  | nil => rfl
  | @cons a b s t hab _ ih =>
    cases i with
    | succ i => simpa using ih i
    | zero =>
      rcases hab with rfl | ⟨rfl, ha⟩
      · rfl
      · exact iff_of_false (fun h => absurd (Option.some.inj h) (by decide)) (by simpa using ha)

/-- The loop in place and the lexer blank the same comments. The text that is left has the length and the line feeds
of the text, no comment begins in it, and blanking it changes nothing. -/
theorem comments_lexed (s : Bytes) :
    overwriteComments s 0 = blankComments s ∧ CommentLexer.run ⟨.code, false⟩ s = blankComments s ∧
      (blankComments s).length = s.length ∧
      (∀ i : Nat, (blankComments s)[i]? = some Bytes.lf ↔ s[i]? = some Bytes.lf) ∧
      ¬ utf8 "//" <:+: blankComments s ∧ ¬ utf8 "/*" <:+: blankComments s ∧
      blankComments (blankComments s) = blankComments s := by
  have hfree : ∀ t, t <:+ blankComments s → ¬ OpensComment t := fun t ht => not_opensComment_of_suffix ht
  have hrelated := blankFrom_related .code s
  refine ⟨overwritten s [], CommentLexer.run_eq .code s, hrelated.length_eq.symm, lf_of_dimmed hrelated, ?_, ?_,
    blankComments_of_free hfree⟩
  · intro h
    obtain ⟨t, hfront, hsuffix⟩ := List.infix_iff_prefix_suffix.1 h
    exact hfree t hsuffix (.inl hfront)
  · intro h
    obtain ⟨t, hfront, hsuffix⟩ := List.infix_iff_prefix_suffix.1 h
    exact hfree t hsuffix (.inr hfront)

end ShaderForge
