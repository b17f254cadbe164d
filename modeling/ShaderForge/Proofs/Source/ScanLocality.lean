import ShaderForge.Proofs.Source.Tokens

/-!
# ShaderForge.Proofs.Source.ScanLocality

Two texts that differ in what stands between an opening and a closing brace, and what the scanners find in them.

* `head?_stop`, `structBlock?_stop` — what is read from a front that ends with a brace does not depend on the text
  behind.
* `Differing`            — what a pattern finds in the two texts before the difference.
* `matchesFrom_differing` — so the scans find the same, one by one.
* `functions_edited`, `structs_edited` — the same functions, and the same structs but for the body between the braces.
-/

namespace ShaderForge

/-! ## Reading up to a brace -/

section Stops

variable {k : UInt8}

theorem dropWhile_stop {f : UInt8 → Bool} (hk : f k = false) (p z : Bytes) :
    (p ++ k :: z).dropWhile f = p.dropWhile f ++ k :: z := by
  induction p with
  | nil => simp [hk]
  | cons b p ih =>
    rw [List.cons_append, List.dropWhile_cons, List.dropWhile_cons]
    split
    · exact ih
    · rfl

theorem takeWhile_stop {f : UInt8 → Bool} (hk : f k = false) (p z : Bytes) :
    (p ++ k :: z).takeWhile f = p.takeWhile f := by
  induction p with
  | nil => simp [hk]
  | cons b p ih =>
    rw [List.cons_append, List.takeWhile_cons, List.takeWhile_cons]
    split
    · rw [ih]
    · rfl

theorem after?_stop {front : Bytes} (hk : k ∉ front) (p z : Bytes) :
    Bytes.after? front (p ++ k :: z) = (Bytes.after? front p).map (· ++ k :: z) := by
  induction front generalizing p with
  | nil => rfl
  | cons a front ih =>
    obtain ⟨ha, hfront⟩ : k ≠ a ∧ k ∉ front := by simpa using hk
    cases p with
    | nil => simp [Bytes.after?, ha.symm]
    | cons b p =>
      rw [List.cons_append, Bytes.after?, Bytes.after?]
      split
      · exact ih hfront p
      · rfl

theorem brace_class (hk : isBrace k = true) :
    isLexSpace k = false ∧ isWordByte k = false ∧ isIdentifierStart k = false ∧ isBodySpace k = false := by
  have hcases : k = octet '\x7b' ∨ k = octet '\x7d' := by simpa [isBrace] using hk
  rcases hcases with rfl | rfl <;> decide

variable (hk : isBrace k = true)

include hk

theorem not_mem_of_isBrace {s : Bytes} (hs : s.any isBrace = false) : k ∉ s := by
  intro hmem
  exact List.any_eq_false.1 hs k hmem hk

theorem skipLexSpace_stop (p z : Bytes) : skipLexSpace (p ++ k :: z) = skipLexSpace p ++ k :: z :=
  dropWhile_stop (brace_class hk).1 p z

theorem someSpace?_stop (p z : Bytes) : someSpace? (p ++ k :: z) = (someSpace? p).map (· ++ k :: z) := by
  cases p with
  | nil => simp [someSpace?, (brace_class hk).1]
  | cons b p =>
    rw [List.cons_append, someSpace?, someSpace?, skipLexSpace_stop hk]
    split <;> rfl

theorem identifier?_stop (p z : Bytes) :
    identifier? (p ++ k :: z) = (identifier? p).map fun r => (r.1, r.2 ++ k :: z) := by
  obtain ⟨-, hword, hstart, -⟩ := brace_class hk
  cases p with
  | nil => simp [identifier?, hstart]
  | cons b p =>
    have htake := takeWhile_stop hword (b :: p) z
    have hdrop := dropWhile_stop hword (b :: p) z
    rw [List.cons_append] at htake hdrop
    rw [List.cons_append, identifier?, identifier?, htake, hdrop]
    split <;> rfl

theorem nameParen?_stop (p z : Bytes) :
    nameParen? (p ++ k :: z) = (nameParen? p).map fun r => (r.1, r.2 ++ k :: z) := by
  have hparen : k ∉ utf8 "(" := not_mem_of_isBrace hk (by decide)
  rw [nameParen?, nameParen?, identifier?_stop hk]
  cases identifier? p with
  | none => rfl
  | some r =>
    simp only [Option.map_some, Option.bind_eq_bind, Option.bind_some]
    rw [skipLexSpace_stop hk, after?_stop hparen]
    cases Bytes.after? "(" (skipLexSpace r.2) <;> rfl

theorem typePart?_stop (before : Option UInt8) (p z : Bytes) :
    typePart? before (p ++ k :: z) = (typePart? before p).map fun r => (r.1, r.2 ++ k :: z) := by
  have hangle : k ∉ utf8 ">" := not_mem_of_isBrace hk (by decide)
  rw [typePart?, typePart?, after?_stop hangle]
  cases Bytes.after? ">" p with
  | some r => simp [skipLexSpace_stop hk]
  | none =>
    simp only [Option.map_none, Option.bind_eq_bind, identifier?_stop hk]
    split
    · cases identifier? p with
      | none => rfl
      | some r =>
        simp only [Option.map_some, Option.bind_some, someSpace?_stop hk]
        cases someSpace? r.2 <;> rfl
    · rfl

theorem head?_stop (before : Option UInt8) (offset : Nat) (p z : Bytes) :
    head? before offset (p ++ k :: z) =
      (head? before offset p).map fun h => { h with inside := h.inside ++ k :: z } := by
  rw [head?, head?, typePart?_stop hk]
  cases typePart? before p with
  | none => rfl
  | some r =>
    simp only [Option.map_some, Option.bind_eq_bind, Option.bind_some, nameParen?_stop hk]
    cases nameParen? r.2 with
    | none => rfl
    | some q =>
      have hlen : (p ++ k :: z).length - (r.2 ++ k :: z).length = p.length - r.2.length := by
        simp only [List.length_append]
        omega
      simp only [Option.map_some, Option.bind_some, hlen]
      rfl

end Stops

/-! ## Scans of two texts -/

section Scans

variable {α : Type} {find : Option UInt8 → Nat → Bytes → Option (α × Bytes)} {R : α → α → Prop}

/-- What the pattern finds depends on the offset as `R` allows only. -/
def Shifts (find : Option UInt8 → Nat → Bytes → Option (α × Bytes)) (R : α → α → Prop) : Prop :=
  ∀ before offset offset' s,
    Option.Rel (fun a b => R a.1 b.1 ∧ a.2 = b.2) (find before offset s) (find before offset' s)

theorem matchesFrom_shift (h : Shifts find R) (skip : Nat) (before : Option UInt8) (offset offset' : Nat) (s : Bytes) :
    List.Forall₂ R (matchesFrom find skip before offset s) (matchesFrom find skip before offset' s) := by
  induction s generalizing skip before offset offset' with
  | nil => simp [matchesFrom]
  | cons b s ih =>
    cases skip with
    | succ skip => exact ih skip (some b) (offset + 1) (offset' + 1)
    | zero =>
      have hfind := h before offset offset' (b :: s)
      rw [matchesFrom, matchesFrom]
      generalize find before offset (b :: s) = found at hfind ⊢
      generalize find before offset' (b :: s) = found' at hfind ⊢
      cases hfind with
      | none => exact ih 0 (some b) (offset + 1) (offset' + 1)
      | @some a a' hrel =>
        obtain ⟨f, rest⟩ := a
        obtain ⟨f', rest'⟩ := a'
        obtain rfl : rest = rest' := hrel.2
        exact .cons hrel.1 (ih _ (some b) (offset + 1) (offset' + 1))

theorem matchesFrom_over {x s : Bytes} (h : ∀ before offset q, q <:+ x → q ≠ [] → find before offset (q ++ s) = none)
    (before : Option UInt8) (offset : Nat) :
    ∃ before' offset', matchesFrom find 0 before offset (x ++ s) = matchesFrom find 0 before' offset' s := by
  induction x generalizing before offset with
  | nil => exact ⟨before, offset, rfl⟩
  | cons b x ih =>
    have hnone := h before offset (b :: x) List.suffix_rfl (by simp)
    rw [List.cons_append] at hnone ⊢
    rw [matchesFrom_next hnone]
    exact ih (fun before offset q hq => h before offset q (hq.trans (List.suffix_cons b x))) (some b) (offset + 1)

/-- Two texts `p ++ k :: z` and `p ++ k :: z'`, and what the pattern finds at the front of both: something that ends
before `k`, something that ends with the same rest of both, or nothing. -/
inductive Differing (find : Option UInt8 → Nat → Bytes → Option (α × Bytes)) (R : α → α → Prop) (k : UInt8)
    (z z' : Bytes) (before : Option UInt8) (offset : Nat) (p : Bytes) : Prop
  | within {f f' : α} {i : Bytes} (hi : i.length < p.length)
      (hf : find before offset (p ++ k :: z) = some (f, i ++ k :: z))
      (hf' : find before offset (p ++ k :: z') = some (f', i ++ k :: z')) (hR : R f f')
  | across {f f' : α} {q q' r : Bytes} {d : UInt8} (hz : z = q ++ d :: r) (hz' : z' = q' ++ d :: r)
      (hf : find before offset (p ++ k :: z) = some (f, r)) (hf' : find before offset (p ++ k :: z') = some (f', r))
      (hR : R f f')
  | none (hf : find before offset (p ++ k :: z) = none) (hf' : find before offset (p ++ k :: z') = none)

theorem matchesFrom_found {before : Option UInt8} {offset : Nat} {b d : UInt8} {q r : Bytes} {f : α}
    (h : find before offset (b :: (q ++ d :: r)) = some (f, r)) :
    ∃ offset', matchesFrom find 0 before offset (b :: (q ++ d :: r)) = f :: matchesFrom find 0 (some d) offset' r := by
  obtain ⟨offset', hskip⟩ := matchesFrom_skip find (some b) (offset + 1) q d r
  have hlen : (q ++ d :: r).length - r.length = q.length + 1 := by
    rw [List.length_append, List.length_cons]
    omega
  refine ⟨offset', ?_⟩
  rw [matchesFrom, h, ← hskip, ← hlen]

variable {k : UInt8} {z z' : Bytes}

/-- The induction goes over the common front; what follows it is compared by `hrest`. -/
theorem matchesFrom_differing (hshift : Shifts find R)
    (hrest : ∀ before offset, List.Forall₂ R (matchesFrom find 0 before offset z) (matchesFrom find 0 before offset z'))
    {p : Bytes} (hfind : ∀ before offset q, q <:+ p → Differing find R k z z' before offset q)
    {skip : Nat} (hskip : skip ≤ p.length) (before : Option UInt8) (offset : Nat) :
    List.Forall₂ R (matchesFrom find skip before offset (p ++ k :: z))
      (matchesFrom find skip before offset (p ++ k :: z')) := by
  induction p generalizing skip before offset with
  | nil =>
    obtain rfl : skip = 0 := Nat.le_zero.1 hskip
    cases hfind before offset [] List.suffix_rfl with
    | within hi => exact absurd hi (Nat.not_lt_zero _)
    | across hz hz' hf hf' hR =>
      subst hz hz'
      obtain ⟨offset₁, heq⟩ := matchesFrom_found hf
      obtain ⟨offset₂, heq'⟩ := matchesFrom_found hf'
      rw [List.nil_append, List.nil_append, heq, heq']
      exact .cons hR (matchesFrom_shift hshift 0 _ offset₁ offset₂ _)
    | none hf hf' =>
      rw [List.nil_append] at hf hf' ⊢
      rw [List.nil_append, matchesFrom_next hf, matchesFrom_next hf']
      exact hrest (some k) (offset + 1)
  | cons b p ih =>
    have hp := fun before offset q (hq : q <:+ p) => hfind before offset q (hq.trans (List.suffix_cons b p))
    cases skip with
    | succ skip => exact ih hp (Nat.le_of_succ_le_succ hskip) (some b) (offset + 1)
    | zero =>
      cases hfind before offset (b :: p) List.suffix_rfl with
      | @within f f' i hi hf hf' hR =>
        have hskipped : ∀ z : Bytes, (p ++ k :: z).length - (i ++ k :: z).length = p.length - i.length := by
          intro z
          simp only [List.length_append]
          omega
        rw [List.cons_append] at hf hf' ⊢
        rw [List.cons_append, matchesFrom, matchesFrom, hf, hf']
        simp only [hskipped]
        exact .cons hR (ih hp (Nat.sub_le _ _) (some b) (offset + 1))
      | @across f f' q q' r d hz hz' hf hf' hR =>
        subst hz hz'
        have hparts : ∀ q : Bytes, b :: p ++ k :: (q ++ d :: r) = b :: ((p ++ k :: q) ++ d :: r) := by simp
        rw [hparts] at hf hf' ⊢
        obtain ⟨offset₁, heq⟩ := matchesFrom_found hf
        obtain ⟨offset₂, heq'⟩ := matchesFrom_found hf'
        rw [hparts, heq, heq']
        exact .cons hR (matchesFrom_shift hshift 0 _ offset₁ offset₂ _)
      | none hf hf' =>
        rw [List.cons_append] at hf hf' ⊢
        rw [List.cons_append, matchesFrom_next hf, matchesFrom_next hf']
        exact ih hp (Nat.zero_le _) (some b) (offset + 1)

/-- What follows the opening brace, if nothing begins before the closing one. -/
theorem matchesFrom_behind (hwords : BeginsWords find) (hshift : Shifts find R) {x y c : Bytes}
    (hx : ∀ before offset q, q <:+ x → q ≠ [] → find before offset (q ++ octet '\x7d' :: c) = none)
    (hy : ∀ before offset q, q <:+ y → q ≠ [] → find before offset (q ++ octet '\x7d' :: c) = none)
    (before : Option UInt8) (offset : Nat) :
    List.Forall₂ R (matchesFrom find 0 before offset (x ++ octet '\x7d' :: c))
      (matchesFrom find 0 before offset (y ++ octet '\x7d' :: c)) := by
  obtain ⟨before₁, offset₁, heq⟩ := matchesFrom_over hx before offset
  obtain ⟨before₂, offset₂, heq'⟩ := matchesFrom_over hy before offset
  have hnone : ∀ before offset, find before offset (octet '\x7d' :: c) = none := by
    refine fun before offset => Option.eq_none_iff_forall_ne_some.2 fun r hr => ?_
    rcases hwords _ _ _ _ _ hr with hb | ⟨hb, -⟩ <;> exact absurd hb (by decide)
  rw [heq, heq', matchesFrom_next (hnone _ _), matchesFrom_next (hnone _ _)]
  exact matchesFrom_shift hshift 0 _ _ _ c

end Scans

/-! ## Functions -/

/-- The text with `x` between braces. -/
def braced (p x c : Bytes) : Bytes := p ++ octet '\x7b' :: (x ++ octet '\x7d' :: c)

/-- Without braces and parentheses. -/
def Flat (x : Bytes) : Prop := ∀ b ∈ x, isBrace b = false ∧ b ≠ octet '(' ∧ b ≠ octet ')'

instance (x : Bytes) : Decidable (Flat x) := List.decidableBAll _ x

theorem Flat.suffix {q x : Bytes} (h : Flat x) (hq : q <:+ x) : Flat q := fun b hb => h b (hq.subset hb)

theorem inside_of_head? {before : Option UInt8} {offset : Nat} {s : Bytes} {h : Head}
    (hhead : head? before offset s = some h) : octet '(' :: h.inside <:+ s := by
  simp only [head?, Option.bind_eq_bind, Option.bind_eq_some_iff] at hhead
  obtain ⟨⟨word, nameAt⟩, htype, ⟨name, inside⟩, hname, hhead⟩ := hhead
  cases hhead
  simp only [nameParen?, Option.bind_eq_bind, Option.bind_eq_some_iff] at hname
  obtain ⟨⟨name', behind⟩, hidentifier, inside', hafter, hname⟩ := hname
  cases hname
  have hopened : skipLexSpace behind = octet '(' :: inside := Bytes.eq_append_of_after? hafter
  have hbehind : behind <:+ nameAt := ⟨name', (eq_append_of_identifier? hidentifier).symm⟩
  rw [← hopened]
  exact ((skipLexSpace_suffix behind).trans hbehind).trans (suffix_of_typePart? htype)

theorem closeParens?_flat {x : Bytes} (hx : Flat x) (depth : Nat) (s : Bytes) :
    closeParens? depth (x ++ s) = closeParens? depth s := by
  induction x with
  | nil => rfl
  | cons b x ih =>
    obtain ⟨-, hopen, hclose⟩ := hx b List.mem_cons_self
    rw [List.cons_append, closeParens?, if_neg hopen, if_neg hclose]
    exact ih (hx.suffix (List.suffix_cons b x))

section Closing

variable {k : UInt8} (hk : isBrace k = true)

include hk

theorem ne_paren : k ≠ octet '(' ∧ k ≠ octet ')' := by
  constructor <;> (rintro rfl; exact absurd hk (by decide))

theorem skipSemantic_stop (p z : Bytes) : skipSemantic (p ++ k :: z) = skipSemantic p ++ k :: z := by
  have hcolon : k ∉ utf8 ":" := not_mem_of_isBrace hk (by decide)
  rw [skipSemantic, skipSemantic, skipLexSpace_stop hk, after?_stop hcolon]
  cases Bytes.after? ":" (skipLexSpace p) with
  | none => rfl
  | some r =>
    simp only [Option.map_some, skipLexSpace_stop hk, identifier?_stop hk]
    cases identifier? (skipLexSpace r) <;> rfl

/-- The parentheses are closed before the brace, or where the texts are the same again. -/
theorem closeParens?_differing {x y : Bytes} (hx : Flat x) (hy : Flat y) (depth : Nat) (i s : Bytes) :
    (∃ r, ∀ z, closeParens? depth (i ++ k :: z) = some (r ++ k :: z)) ∨
      closeParens? depth (i ++ k :: (x ++ s)) = closeParens? depth (i ++ k :: (y ++ s)) := by
  induction i generalizing depth with
  | nil =>
    refine .inr ?_
    obtain ⟨hopen, hclose⟩ := ne_paren hk
    rw [List.nil_append, List.nil_append, closeParens?, if_neg hopen, if_neg hclose, closeParens?, if_neg hopen,
      if_neg hclose, closeParens?_flat hx, closeParens?_flat hy]
  | cons b i ih =>
    simp only [List.cons_append, closeParens?]
    split
    · exact ih (depth + 1)
    · split
      · split
        · exact .inl ⟨i, fun z => rfl⟩
        · exact ih (depth - 1)
      · exact ih depth

theorem isDefinition_differing {x y : Bytes} (hx : Flat x) (hy : Flat y) (h : Head) (i s : Bytes) :
    ({ h with inside := i ++ k :: (x ++ s) } : Head).isDefinition =
      ({ h with inside := i ++ k :: (y ++ s) } : Head).isDefinition := by
  unfold Head.isDefinition
  rcases closeParens?_differing hk hx hy 1 i s with ⟨r, hr⟩ | heq
  · have hbody : ∀ z, ((skipSemantic (r ++ k :: z)).dropWhile isBodySpace).head? =
        (((skipSemantic r).dropWhile isBodySpace).head?).or (some k) := by
      intro z
      rw [skipSemantic_stop hk, dropWhile_stop (brace_class hk).2.2.2, List.head?_append, List.head?_cons]
    simp only [hr, hbody]
  · simp only [heq]

end Closing

/-- The same name, and a definition both or neither. -/
def Head.Alike (h h' : Head) : Prop := h.name = h'.name ∧ h.isDefinition = h'.isDefinition

theorem shifts_headMatch? : Shifts headMatch? Head.Alike := by
  intro before offset offset' s
  simp only [headMatch?, head?, Option.bind_eq_bind]
  cases typePart? before s with
  | none => exact .none
  | some r =>
    simp only [Option.bind_some]
    cases nameParen? r.2 with
    | none => exact .none
    | some q => exact .some ⟨⟨rfl, rfl⟩, rfl⟩

section Edits

variable {x y : Bytes} (hx : Flat x) (hy : Flat y) (p c : Bytes)

include hx in
theorem headMatch?_flat (before : Option UInt8) (offset : Nat) :
    headMatch? before offset (x ++ octet '\x7d' :: c) = none := by
  rw [headMatch?, head?_stop (by decide), Option.map_map]
  cases hhead : head? before offset x with
  | none => rfl
  | some h =>
    have hparen : octet '(' ∈ x := (inside_of_head? hhead).subset List.mem_cons_self
    exact absurd rfl (hx _ hparen).2.1

include hx hy

theorem heads_differing (before : Option UInt8) (offset : Nat) :
    Differing headMatch? Head.Alike (octet '\x7b') (x ++ octet '\x7d' :: c) (y ++ octet '\x7d' :: c) before offset
      p := by
  have hstop : ∀ z, headMatch? before offset (p ++ octet '\x7b' :: z) =
      (head? before offset p).map fun h =>
        ({ h with inside := h.inside ++ octet '\x7b' :: z }, h.inside ++ octet '\x7b' :: z) := by
    intro z
    rw [headMatch?, head?_stop (by decide), Option.map_map]
    rfl
  cases hhead : head? before offset p with
  | none =>
    rw [hhead] at hstop
    exact .none (hstop _) (hstop _)
  | some h =>
    rw [hhead] at hstop
    have hlen := (inside_of_head? hhead).length_le
    exact .within hlen (hstop _) (hstop _) ⟨rfl, isDefinition_differing (by decide) hx hy h _ _⟩

theorem functions_edited :
    List.Forall₂ (fun f f' : Head => f.name = f'.name) (functions (braced p x c)) (functions (braced p y c)) := by
  have halike := matchesFrom_differing shifts_headMatch?
    (matchesFrom_behind beginsWords_headMatch? shifts_headMatch?
      (fun before offset q hq _ => headMatch?_flat (hx.suffix hq) c before offset)
      fun before offset q hq _ => headMatch?_flat (hy.suffix hq) c before offset)
    (fun before offset q (_ : q <:+ p) => heads_differing hx hy q c before offset) (Nat.zero_le p.length) none 0
  rw [← headsFrom_eq, ← headsFrom_eq] at halike
  unfold functions braced
  generalize headsFrom 0 none 0 (p ++ octet '\x7b' :: (x ++ octet '\x7d' :: c)) = hs at halike
  generalize headsFrom 0 none 0 (p ++ octet '\x7b' :: (y ++ octet '\x7d' :: c)) = hs' at halike
  induction halike with
  | nil => exact .nil
  | cons hhead _ ih =>
    obtain ⟨hname, hdefinition⟩ := hhead
    rw [List.filter_cons, List.filter_cons, hdefinition]
    split
    · exact .cons hname ih
    · exact ih

end Edits

/-! ## Structs -/

/-- A struct up to its opening brace: the text from the name on, the name, and the text behind it. -/
def structHead? (s : Bytes) : Option (Bytes × Bytes × Bytes) := do
  let nameAt ← someSpace? (← Bytes.after? "struct" s)
  let (name, rest) ← identifier? nameAt
  return (nameAt, name, skipLexSpace rest)

/-- A struct from its body on: the body, and what follows the struct. -/
def structTail? (s : Bytes) : Option (Bytes × Bytes) := do
  let rest ← Bytes.after? "\x7d" (s.drop (s.takeWhile fun b => !isBrace b).length)
  let rest ← Bytes.after? ";" (skipLexSpace rest)
  return (s.takeWhile fun b => !isBrace b, rest)

theorem structBlock?_eq (before : Option UInt8) (offset : Nat) (s : Bytes) :
    structBlock? before offset s =
      if endsWord before then do
        let (nameAt, name, opened) ← structHead? s
        let bodyAt ← Bytes.after? "\x7b" opened
        let (body, rest) ← structTail? bodyAt
        return (⟨name, offset + (s.length - nameAt.length), body, offset + (s.length - bodyAt.length)⟩, rest)
      else none := by
  simp [structBlock?, structHead?, structTail?, Option.bind_assoc]

theorem structHead?_stop {k : UInt8} (hk : isBrace k = true) (p z : Bytes) :
    structHead? (p ++ k :: z) = (structHead? p).map fun r => (r.1 ++ k :: z, r.2.1, r.2.2 ++ k :: z) := by
  have hword : k ∉ utf8 "struct" := not_mem_of_isBrace hk (by decide)
  rw [structHead?, structHead?, after?_stop hword]
  cases Bytes.after? "struct" p with
  | none => rfl
  | some r =>
    simp only [Option.map_some, Option.bind_eq_bind, Option.bind_some, someSpace?_stop hk]
    cases someSpace? r with
    | none => rfl
    | some nameAt =>
      simp only [Option.map_some, Option.bind_some, identifier?_stop hk]
      cases identifier? nameAt with
      | none => rfl
      | some q => simp [skipLexSpace_stop hk]

theorem structTail?_open (p z : Bytes) :
    structTail? (p ++ octet '\x7b' :: z) = (structTail? p).map fun r => (r.1, r.2 ++ octet '\x7b' :: z) := by
  have htake : (p ++ octet '\x7b' :: z).takeWhile (fun b => !isBrace b) = p.takeWhile fun b => !isBrace b :=
    takeWhile_stop (by decide) p z
  have hdrop : (p ++ octet '\x7b' :: z).drop (p.takeWhile fun b => !isBrace b).length =
      p.drop (p.takeWhile fun b => !isBrace b).length ++ octet '\x7b' :: z :=
    List.drop_append_of_le_length (List.takeWhile_prefix _).length_le
  rw [structTail?, structTail?, htake, hdrop, after?_stop (by decide)]
  cases Bytes.after? "\x7d" (p.drop (p.takeWhile fun b => !isBrace b).length) with
  | none => rfl
  | some r =>
    simp only [Option.map_some, Option.bind_eq_bind, Option.bind_some]
    rw [skipLexSpace_stop (by decide), after?_stop (by decide)]
    cases Bytes.after? ";" (skipLexSpace r) <;> rfl

theorem structTail?_close {x : Bytes} (hx : Flat x) (c : Bytes) :
    structTail? (x ++ octet '\x7d' :: c) = (Bytes.after? ";" (skipLexSpace c)).map fun r => (x, r) := by
  have htake : (x ++ octet '\x7d' :: c).takeWhile (fun b => !isBrace b) = x :=
    Bytes.takeWhile_front (fun b hb => by simp [(hx b hb).1]) (by intro b hb; cases hb; rfl)
  rw [structTail?, htake, List.drop_left]
  simp only [show Bytes.after? "\x7d" (octet '\x7d' :: c) = some c from rfl, Option.bind_eq_bind, Option.bind_some]
  cases Bytes.after? ";" (skipLexSpace c) <;> rfl

theorem eq_of_someSpace? {s r : Bytes} (h : someSpace? s = some r) :
    ∃ u c, s = u ++ c :: r ∧ isLexSpace c = true := by
  cases s with
  | nil => cases h
  | cons b s =>
    rw [someSpace?] at h
    split at h
    · rename_i hb
      cases h
      have hne : b :: s.takeWhile isLexSpace ≠ [] := by simp
      have hspaces : ∀ c ∈ b :: s.takeWhile isLexSpace, isLexSpace c = true :=
        List.forall_mem_cons.2 ⟨hb, List.all_eq_true.1 List.all_takeWhile⟩
      refine ⟨(b :: s.takeWhile isLexSpace).dropLast, (b :: s.takeWhile isLexSpace).getLast hne, ?_, ?_⟩
      · rw [List.append_cons, List.dropLast_append_getLast hne, skipLexSpace, List.cons_append,
          List.takeWhile_append_dropWhile]
      · exact hspaces _ (List.getLast_mem hne)
    · cases h

theorem eq_of_structHead? {s nameAt name opened : Bytes} (h : structHead? s = some (nameAt, name, opened)) :
    ∃ u c g, s = u ++ c :: (name ++ (g ++ opened)) ∧ isLexSpace c = true ∧ IsIdentifier name ∧
      ∀ b ∈ g, isLexSpace b = true := by
  simp only [structHead?, Option.bind_eq_bind, Option.bind_eq_some_iff] at h
  obtain ⟨spaced, hspaced, nameAt', hnameAt, ⟨name', behind⟩, hname, h⟩ := h
  cases h
  obtain ⟨u, c, rfl, hc⟩ := eq_of_someSpace? hnameAt
  refine ⟨utf8 "struct" ++ u, c, behind.takeWhile isLexSpace, ?_, hc, isIdentifier_of_identifier? hname,
    List.all_eq_true.1 List.all_takeWhile⟩
  rw [Bytes.eq_append_of_after? hspaced, skipLexSpace, List.takeWhile_append_dropWhile,
    ← eq_append_of_identifier? hname, List.append_assoc]

/-- The last word of a text, white space behind it apart. -/
def lastWord (s : Bytes) : Bytes := ((s.reverse.dropWhile isLexSpace).takeWhile isWordByte).reverse

theorem lastWord_append (u : Bytes) {c : UInt8} {w g : Bytes} (hc : isLexSpace c = true) (hw : IsIdentifier w)
    (hg : ∀ b ∈ g, isLexSpace b = true) : lastWord (u ++ c :: (w ++ g)) = w := by
  have hspaceWord : ∀ b, isWordByte b = true → isLexSpace b = false := fun b hb => (wordByte_class b hb).1
  have hreverse : (u ++ c :: (w ++ g)).reverse = g.reverse ++ (w.reverse ++ c :: u.reverse) := by simp
  have hdrop : (g.reverse ++ (w.reverse ++ c :: u.reverse)).dropWhile isLexSpace = w.reverse ++ c :: u.reverse := by
    refine Bytes.dropWhile_front (fun b hb => hg b (List.mem_reverse.1 hb)) fun b hb => hspaceWord b (hw.isWord b ?_)
    obtain ⟨d, v, hv⟩ := List.exists_cons_of_ne_nil (List.reverse_ne_nil_iff.2 hw.ne_nil)
    rw [hv] at hb
    obtain rfl : d = b := by simpa using hb
    exact List.mem_reverse.1 (hv ▸ List.mem_cons_self)
  have htake : (w.reverse ++ c :: u.reverse).takeWhile isWordByte = w.reverse := by
    refine Bytes.takeWhile_front (fun b hb => hw.isWord b (List.mem_reverse.1 hb)) fun b hb => ?_
    obtain rfl : c = b := by simpa using hb
    cases hword : isWordByte c with
    | false => rfl
    | true =>
      rw [hspaceWord c hword] at hc
      cases hc
  rw [lastWord, hreverse, hdrop, htake, List.reverse_reverse]

/-- The same name, and the same body unless the struct is the named one. -/
def StructBlock.Alike (name : Bytes) (b b' : StructBlock) : Prop :=
  b.name = b'.name ∧ (b.body = b'.body ∨ b.name = name)

theorem shifts_structBlock? (name : Bytes) : Shifts structBlock? (StructBlock.Alike name) := by
  intro before offset offset' s
  rw [structBlock?_eq, structBlock?_eq]
  split
  · cases structHead? s with
    | none => exact .none
    | some head =>
      simp only [Option.bind_eq_bind, Option.bind_some]
      cases Bytes.after? "\x7b" head.2.2 with
      | none => exact .none
      | some bodyAt =>
        simp only [Option.bind_some]
        cases structTail? bodyAt with
        | none => exact .none
        | some tail => exact .some ⟨⟨rfl, .inl rfl⟩, rfl⟩
  · exact .none

theorem structBlock?_stop {before : Option UInt8} (hends : endsWord before = true) {p nameAt name opened : Bytes}
    (hhead : structHead? p = some (nameAt, name, opened)) (offset : Nat) (z : Bytes) :
    structBlock? before offset (p ++ octet '\x7b' :: z) =
      (Bytes.after? "\x7b" (opened ++ octet '\x7b' :: z)).bind fun bodyAt => (structTail? bodyAt).map fun tail =>
        (⟨name, offset + (p.length - nameAt.length), tail.1, offset + (p.length + 1 + z.length - bodyAt.length)⟩,
          tail.2) := by
  have hname : (p ++ octet '\x7b' :: z).length - (nameAt ++ octet '\x7b' :: z).length = p.length - nameAt.length := by
    simp only [List.length_append]
    omega
  have hwhole : (p ++ octet '\x7b' :: z).length = p.length + 1 + z.length := by
    rw [List.length_append, List.length_cons]
    omega
  rw [structBlock?_eq, structHead?_stop (by decide), hhead, hends]
  simp only [if_true, Option.map_some, Option.bind_eq_bind, Option.bind_some, hname]
  congr 1
  funext bodyAt
  rw [hwhole]
  cases structTail? bodyAt <;> rfl

theorem structBlock?_opened {before : Option UInt8} (hends : endsWord before = true) {p nameAt name : Bytes}
    (hhead : structHead? p = some (nameAt, name, [])) (offset : Nat) {x : Bytes} (hx : Flat x) (c : Bytes) :
    structBlock? before offset (p ++ octet '\x7b' :: (x ++ octet '\x7d' :: c)) =
      (Bytes.after? ";" (skipLexSpace c)).map fun r =>
        (⟨name, offset + (p.length - nameAt.length), x, offset + (p.length + 1)⟩, r) := by
  rw [structBlock?_stop hends hhead]
  simp only [List.nil_append, show ∀ z, Bytes.after? "\x7b" (octet '\x7b' :: z) = some z from fun z => rfl,
    Option.bind_some, structTail?_close hx, Option.map_map, Nat.add_sub_cancel]
  rfl

theorem structBlock?_closed {before : Option UInt8} (hends : endsWord before = true) {p nameAt name opened : Bytes}
    (hhead : structHead? p = some (nameAt, name, octet '\x7b' :: opened)) (offset : Nat) (z : Bytes) :
    structBlock? before offset (p ++ octet '\x7b' :: z) =
      (structTail? opened).map fun tail =>
        (⟨name, offset + (p.length - nameAt.length), tail.1, offset + (p.length - opened.length)⟩,
          tail.2 ++ octet '\x7b' :: z) := by
  have hbody : p.length + 1 + z.length - (opened ++ octet '\x7b' :: z).length = p.length - opened.length := by
    simp only [List.length_append, List.length_cons]
    omega
  rw [structBlock?_stop hends hhead, List.cons_append,
    show Bytes.after? "\x7b" (octet '\x7b' :: (opened ++ octet '\x7b' :: z)) =
      some (opened ++ octet '\x7b' :: z) from rfl,
    Option.bind_some, structTail?_open, Option.map_map, hbody]
  rfl

theorem suffix_of_structTail? {s body rest : Bytes} (h : structTail? s = some (body, rest)) : rest <:+ s := by
  simp only [structTail?, Option.bind_eq_bind, Option.bind_eq_some_iff] at h
  obtain ⟨closed, hclosed, rest', hrest, h⟩ := h
  cases h
  exact (((suffix_of_after? hrest).trans (skipLexSpace_suffix _)).trans (suffix_of_after? hclosed)).trans
    (List.drop_suffix _ _)

/-- The text ends with a struct up to its brace: the word, white space, and the name. -/
def OpensStruct (name p : Bytes) : Prop :=
  ∃ pre gap gap', p = pre ++ (utf8 "struct" ++ (gap ++ (name ++ gap'))) ∧ gap ≠ [] ∧
    (∀ b ∈ gap, isLexSpace b = true) ∧ ∀ b ∈ gap', isLexSpace b = true

theorem OpensStruct.lastWord_eq {name p : Bytes} (h : OpensStruct name p) (hname : IsIdentifier name) :
    lastWord p = name := by
  obtain ⟨pre, gap, gap', rfl, hne, hgap, hgap'⟩ := h
  have hparts : pre ++ (utf8 "struct" ++ (gap ++ (name ++ gap'))) =
      (pre ++ (utf8 "struct" ++ gap.dropLast)) ++ gap.getLast hne :: (name ++ gap') := by
    conv => lhs; rw [← List.dropLast_append_getLast hne]
    simp
  rw [hparts]
  exact lastWord_append _ (hgap _ (List.getLast_mem hne)) hname hgap'

/-- Wherever its word is taken to stand, the struct that the brace opens has that name. -/
theorem OpensStruct.name_eq {name p q nameAt n : Bytes} (h : OpensStruct name p) (hname : IsIdentifier name)
    (hq : q <:+ p) (hhead : structHead? q = some (nameAt, n, [])) : n = name := by
  obtain ⟨u, c, g, rfl, hc, hn, hg⟩ := eq_of_structHead? hhead
  obtain ⟨pre, rfl⟩ := hq
  rw [← h.lastWord_eq hname, List.append_nil, ← List.append_assoc]
  exact (lastWord_append _ hc hn hg).symm

section Edits

variable {x y : Bytes} (hx : Flat x) (hy : Flat y) (p c : Bytes)

include hx in
theorem structBlock?_flat (before : Option UInt8) (offset : Nat) :
    structBlock? before offset (x ++ octet '\x7d' :: c) = none := by
  rw [structBlock?_eq, structHead?_stop (by decide)]
  split
  · cases hhead : structHead? x with
    | none => rfl
    | some head =>
      obtain ⟨nameAt, name, opened⟩ := head
      simp only [Option.map_some, Option.bind_eq_bind, Option.bind_some]
      rw [after?_stop (by decide)]
      cases hopened : Bytes.after? "\x7b" opened with
      | none => rfl
      | some bodyAt =>
        obtain ⟨u, c, g, rfl, -⟩ := eq_of_structHead? hhead
        rw [Bytes.eq_append_of_after? hopened] at hx
        have hbrace : octet '\x7b' ∈ utf8 "\x7b" := by decide
        exact absurd (hx (octet '\x7b') (by simp [hbrace])).1 (by decide)
  · rfl

include hx hy

/-- A struct that is opened before the brace ends before it. One that the brace opens has the given name, and where it
ends does not depend on its body. -/
theorem structs_differing {name : Bytes} (hname : ∀ nameAt n, structHead? p = some (nameAt, n, []) → n = name)
    (before : Option UInt8) (offset : Nat) :
    Differing structBlock? (StructBlock.Alike name) (octet '\x7b') (x ++ octet '\x7d' :: c) (y ++ octet '\x7d' :: c)
      before offset p := by
  have hnone : (∀ z, structBlock? before offset (p ++ octet '\x7b' :: z) = none) →
      Differing structBlock? (StructBlock.Alike name) (octet '\x7b') (x ++ octet '\x7d' :: c) (y ++ octet '\x7d' :: c)
        before offset p := fun h => .none (h _) (h _)
  cases hends : endsWord before with
  | false => exact hnone fun z => by rw [structBlock?_eq, hends]; rfl
  | true =>
    cases hhead : structHead? p with
    | none => exact hnone fun z => by rw [structBlock?_eq, structHead?_stop (by decide), hhead, hends]; rfl
    | some head =>
      obtain ⟨nameAt, n, opened⟩ := head
      cases opened with
      | nil =>
        have hopened := structBlock?_opened hends hhead offset hx c
        have hopened' := structBlock?_opened hends hhead offset hy c
        cases hclose : Bytes.after? ";" (skipLexSpace c) with
        | none =>
          rw [hclose] at hopened hopened'
          exact .none hopened hopened'
        | some r =>
          rw [hclose] at hopened hopened'
          have hc : c = c.takeWhile isLexSpace ++ octet ';' :: r := by
            have hskip : skipLexSpace c = octet ';' :: r := Bytes.eq_append_of_after? hclose
            rw [← hskip, skipLexSpace, List.takeWhile_append_dropWhile]
          have hsplit : ∀ x : Bytes, x ++ octet '\x7d' :: c =
              (x ++ octet '\x7d' :: c.takeWhile isLexSpace) ++ octet ';' :: r := by
            intro x
            rw [List.append_assoc, List.cons_append, ← hc]
          exact .across (hsplit x) (hsplit y) hopened hopened' ⟨rfl, .inr (hname nameAt n hhead)⟩
      | cons b opened =>
        by_cases hb : b = octet '\x7b'
        · subst hb
          have hclosed := structBlock?_closed hends hhead offset
          cases htail : structTail? opened with
          | none =>
            rw [htail] at hclosed
            exact hnone hclosed
          | some tail =>
            rw [htail] at hclosed
            obtain ⟨u, c, g, hp, -⟩ := eq_of_structHead? hhead
            have hlen : tail.2.length < p.length := by
              have hrest := (suffix_of_structTail? htail).length_le
              rw [hp]
              simp only [List.length_append, List.length_cons]
              omega
            exact .within hlen (hclosed _) (hclosed _) ⟨rfl, .inl rfl⟩
        · refine hnone fun z => ?_
          rw [structBlock?_stop hends hhead, List.cons_append, show utf8 "\x7b" = [octet '\x7b'] from rfl, Bytes.after?,
            if_neg (Ne.symm hb)]
          rfl

theorem structs_edited {name : Bytes} (hname : IsIdentifier name) (hp : OpensStruct name p) :
    List.Forall₂ (StructBlock.Alike name) (structs (braced p x c)) (structs (braced p y c)) := by
  unfold structs
  rw [structsFrom_eq, structsFrom_eq]
  refine matchesFrom_differing (shifts_structBlock? name)
    (matchesFrom_behind beginsWords_structBlock? (shifts_structBlock? name)
      (fun before offset q hq _ => structBlock?_flat (hx.suffix hq) c before offset)
      fun before offset q hq _ => structBlock?_flat (hy.suffix hq) c before offset)
    (fun before offset q hq => structs_differing hx hy q c (fun nameAt n hhead => ?_) before offset)
    (Nat.zero_le p.length) none 0
  exact hp.name_eq hname hq hhead

end Edits

end ShaderForge
