import ShaderForge.Proofs.Files.Path
import ShaderForge.Proofs.Text.Bytes
import ShaderForge.Source.Include

/-!
# ShaderForge.Proofs.Source.Directives

Include directives as a language, and what cutting a line at them does.

* `IsDirective`             — the octets of one directive and the target that it names.
* `directive?_eq_some_iff`  — the reader of directives accepts that language, and nothing else.
* `directive_induction`     — a line is used up octet by octet and directive by directive.
* `cutDirectives_append`, `cutDirectives_cons` — the cut of a line, by that induction.
-/

namespace ShaderForge

namespace Bytes

theorem cut?_eq_some_iff {sep : UInt8} {s l r : Bytes} :
    cut? sep s = some (l, r) ↔ s = l ++ sep :: r ∧ sep ∉ l := by
  induction s generalizing l with
  | nil => simp [cut?]
  | cons b s ih =>
    rw [cut?]
    split
    · rename_i hb
      subst hb
      constructor
      · intro h
        cases h
        exact ⟨rfl, List.not_mem_nil⟩
      · rintro ⟨hs, hl⟩
        cases l with
        | nil =>
          cases hs
          rfl
        | cons c l =>
          rw [List.cons_append, List.cons.injEq] at hs
          exact absurd (hs.1 ▸ List.mem_cons_self) hl
    · rename_i hb
      rw [Option.map_eq_some_iff]
      constructor
      · rintro ⟨⟨l', r'⟩, hcut, heq⟩
        cases heq
        obtain ⟨rfl, hl⟩ := ih.1 hcut
        exact ⟨rfl, by simpa [hl] using fun h => hb h.symm⟩
      · rintro ⟨hs, hl⟩
        cases l with
        | nil =>
          cases hs
          exact absurd rfl hb
        | cons c l =>
          cases hs
          exact ⟨(l, r), ih.2 ⟨rfl, fun h => hl (List.mem_cons_of_mem _ h)⟩, rfl⟩

end Bytes

/-- The octets `d` are a directive: the word, white space, and `target` in quotes. -/
structure IsDirective (d target : Bytes) : Prop where
  spelled : ∃ gap, d = utf8 "#include" ++ (gap ++ Bytes.quote :: (target ++ [Bytes.quote])) ∧ gap ≠ [] ∧
    ∀ b ∈ gap, isLexSpace b = true
  named : target ≠ []
  unquoted : Bytes.quote ∉ target

theorem IsDirective.ne_nil {d target : Bytes} (h : IsDirective d target) : d ≠ [] := by
  obtain ⟨gap, rfl, _, _⟩ := h.spelled
  simp

theorem directive?_append {d target : Bytes} (h : IsDirective d target) (rest : Bytes) :
    directive? (d ++ rest) = some (target, d.length) := by
  obtain ⟨gap, rfl, hgap, hspace⟩ := h.spelled
  have hopened : (gap ++ Bytes.quote :: (target ++ [Bytes.quote]) ++ rest).dropWhile isLexSpace =
      Bytes.quote :: (target ++ Bytes.quote :: rest) := by
    rw [List.append_assoc, List.dropWhile_append_of_pos hspace]
    have hquote : isLexSpace Bytes.quote = false := by decide
    simp [hquote]
  have hcut : Bytes.cut? Bytes.quote (target ++ Bytes.quote :: rest) = some (target, rest) :=
    Bytes.cut?_eq_some_iff.2 ⟨rfl, h.unquoted⟩
  have hlen := List.length_pos_iff.2 hgap
  unfold directive?
  rw [List.append_assoc, Bytes.after?_append]
  simp only [Option.bind_eq_bind, Option.bind_some, hopened]
  rw [if_neg (by simp; omega)]
  simp [Bytes.after?, hcut, h.named]
  omega

theorem directive?_eq_some_iff {s target : Bytes} {width : Nat} :
    directive? s = some (target, width) ↔
      ∃ d rest, s = d ++ rest ∧ IsDirective d target ∧ width = d.length := by
  constructor
  · intro h
    simp only [directive?, Option.bind_eq_bind, Option.bind_eq_some_iff] at h
    obtain ⟨after, hafter, h⟩ := h
    split at h
    · cases h
    rename_i hspace
    simp only [Option.bind_eq_some_iff] at h
    obtain ⟨inside, hinside, ⟨name, rest⟩, hcut, h⟩ := h
    simp only at h
    split at h
    · cases h
    rename_i hname
    cases h
    obtain rfl := Bytes.eq_append_of_after? hafter
    have hopened := Bytes.eq_append_of_after? hinside
    obtain ⟨rfl, hunquoted⟩ := Bytes.cut?_eq_some_iff.1 hcut
    have hsplit := List.takeWhile_append_dropWhile (p := isLexSpace) (l := after)
    have hs : utf8 "#include" ++ after =
        (utf8 "#include" ++ (after.takeWhile isLexSpace ++ Bytes.quote :: (target ++ [Bytes.quote]))) ++ rest := by
      rw [hopened] at hsplit
      simpa using hsplit.symm
    refine ⟨_, rest, hs, ⟨⟨_, rfl, ?_, ?_⟩, ?_, hunquoted⟩, ?_⟩
    · intro hnil
      rw [hnil, List.nil_append] at hsplit
      exact hspace (congrArg List.length hsplit)
    · exact List.all_eq_true.1 List.all_takeWhile
    · simpa using hname
    · rw [hs, List.length_append]
      omega
  · rintro ⟨d, rest, rfl, hd, rfl⟩
    exact directive?_append hd rest

theorem IsDirective.unique {d d' target target' rest rest' : Bytes} (h : IsDirective d target)
    (h' : IsDirective d' target') (heq : d ++ rest = d' ++ rest') :
    d = d' ∧ target = target' ∧ rest = rest' := by
  have hread := directive?_append h rest
  rw [heq, directive?_append h' rest', Option.some.injEq, Prod.mk.injEq] at hread
  obtain ⟨hd, hrest⟩ := List.append_inj heq hread.2.symm
  exact ⟨hd, hread.1.symm, hrest⟩

theorem not_prefix_of_directive?_eq_none {s d target : Bytes} (h : directive? s = none)
    (hd : IsDirective d target) : ¬ d <+: s := by
  rintro ⟨rest, rfl⟩
  rw [directive?_append hd] at h
  cases h

/-- A line is used up from the front, one octet where no directive stands and else one directive. -/
theorem directive_induction {P : Bytes → Prop} (nil : P [])
    (keep : ∀ b s, directive? (b :: s) = none → P s → P (b :: s))
    (replace : ∀ d target s, IsDirective d target → P s → P (d ++ s)) (line : Bytes) : P line := by
  induction hn : line.length using Nat.strongRecOn generalizing line with
  | ind n ih =>
    cases line with
    | nil => exact nil
    | cons b s =>
      cases hd : directive? (b :: s) with
      | none =>
        refine keep b s hd (ih s.length ?_ s rfl)
        rw [← hn, List.length_cons]
        omega
      | some found =>
        obtain ⟨target, width⟩ := found
        obtain ⟨d, rest, hs, hdir, _⟩ := directive?_eq_some_iff.1 hd
        have hpos := List.length_pos_iff.2 hdir.ne_nil
        rw [hs] at hn ⊢
        refine replace d target rest hdir (ih rest.length ?_ rest rfl)
        rw [← hn, List.length_append]
        omega

/-! ## The cut of a line -/

theorem cutDirectivesFrom_eq (skip : Nat) (s : Bytes) :
    cutDirectivesFrom skip s = cutDirectives (s.drop skip) := by
  induction skip generalizing s with
  | zero => rfl
  | succ skip ih =>
    cases s with
    | nil => rfl
    | cons b s =>
      rw [cutDirectivesFrom, ih]
      rfl

theorem cutDirectives_cons {b : UInt8} {s : Bytes} (h : directive? (b :: s) = none) :
    cutDirectives (b :: s) = (b :: (cutDirectives s).1, (cutDirectives s).2) := by
  rw [cutDirectives, cutDirectivesFrom, h]
  rfl

theorem cutDirectives_append {d target : Bytes} (h : IsDirective d target) (s : Bytes) :
    cutDirectives (d ++ s) = ([], (target, (cutDirectives s).1) :: (cutDirectives s).2) := by
  have hread := directive?_append h s
  obtain ⟨b, d, rfl⟩ := List.exists_cons_of_ne_nil h.ne_nil
  rw [List.cons_append] at hread ⊢
  rw [cutDirectives, cutDirectivesFrom, hread]
  simp only [List.length_cons, Nat.add_sub_cancel, cutDirectivesFrom_eq, List.drop_left]

/-- No directive stands anywhere in the line. -/
def DirectiveFree (line : Bytes) : Prop := ∀ d target, IsDirective d target → ¬ d <:+: line

theorem directiveFree_nil : DirectiveFree [] := by
  intro d target hd hinfix
  exact hd.ne_nil (List.infix_nil.1 hinfix)

theorem DirectiveFree.cons {b : UInt8} {s : Bytes} (hb : directive? (b :: s) = none) (h : DirectiveFree s) :
    DirectiveFree (b :: s) := by
  intro d target hd hinfix
  rcases List.infix_cons_iff.1 hinfix with hfront | hinside
  · exact not_prefix_of_directive?_eq_none hb hd hfront
  · exact h d target hd hinside

theorem directiveFree_of_not_mem {line : Bytes} (h : octet '#' ∉ line) : DirectiveFree line := by
  intro d target hd hpart
  obtain ⟨gap, rfl, -, -⟩ := hd.spelled
  refine h (hpart.subset (List.mem_append_left _ ?_))
  decide

theorem cutDirectives_of_free {line : Bytes} (h : DirectiveFree line) : cutDirectives line = (line, []) := by
  induction line using directive_induction with
  | nil => rfl
  | keep b s hb ih =>
    have hs : DirectiveFree s := fun d target hd hpart => h d target hd (hpart.trans (List.suffix_cons b s).isInfix)
    rw [cutDirectives_cons hb, ih hs]
  | replace d target s hd ih => exact absurd (List.prefix_append d s).isInfix (h d target hd)

end ShaderForge
