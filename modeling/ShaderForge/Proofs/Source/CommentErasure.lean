import ShaderForge.Proofs.Source.CommentLexing
import ShaderForge.Proofs.Source.StrictExports

/-!
# ShaderForge.Proofs.Source.CommentErasure

A root text and the same text with its comments blank, from merging to what is recovered.

* `Outside`            — a text that ends outside of comments: what follows it is blanked as if it stood alone.
* `comment_cases`      — a comment is closed, or open to the end of the text.
* `SameDirectives`     — two texts with the same directives at the same places.
* `map_resolveText`    — merging such texts takes the same course, with the same errors and origins.
* `erases`             — the merged texts are equal once comments are blank, by induction on the root text.
* `comments_inert`     — so a parse gives the same for both.
-/

namespace ShaderForge

/-! ## Where comments begin and end -/

/-- What follows the text is blanked as if it stood alone. -/
def Outside (s : Bytes) : Prop := ∀ r, blankComments (s ++ r) = blankComments s ++ blankComments r

theorem blankComments_nil : blankComments [] = [] := rfl

theorem outside_nil : Outside [] := fun _ => rfl

theorem Outside.append {s s' : Bytes} (h : Outside s) (h' : Outside s') : Outside (s ++ s') := by
  intro r
  rw [List.append_assoc, h, h', h s', List.append_assoc]

theorem outside_singleton {b : UInt8} (hb : b ≠ Bytes.slash) : Outside [b] := by
  intro r
  rw [List.singleton_append, blankComments_cons (not_opensComment hb r), blankComments_cons (not_opensComment hb [])]
  rfl

theorem outside_of_not_mem {s : Bytes} (h : Bytes.slash ∉ s) : Outside s := by
  induction s with
  | nil => exact outside_nil
  | cons b s ih =>
    obtain ⟨hb, hs⟩ : Bytes.slash ≠ b ∧ Bytes.slash ∉ s := by simpa using h
    exact (outside_singleton hb.symm).append (ih hs)

/-- Only blanks and line feeds. -/
def Cleared (s : Bytes) : Prop := ∀ b ∈ s, b = Bytes.space ∨ b = Bytes.lf

theorem Cleared.not_mem {s : Bytes} (h : Cleared s) {b : UInt8} (hspace : b ≠ Bytes.space) (hlf : b ≠ Bytes.lf) :
    b ∉ s := fun hb => (h b hb).elim hspace hlf

theorem Cleared.cons {b : UInt8} {s : Bytes} (hb : b = Bytes.space ∨ b = Bytes.lf) (h : Cleared s) :
    Cleared (b :: s) := List.forall_mem_cons.2 ⟨hb, h⟩

theorem blankFrom_comment {mode : CommentMode} (hmode : mode ≠ .code) (s : Bytes) :
    Cleared (blankFrom mode s) ∨ ∃ body rest blanks, s = body ++ rest ∧ body ≠ [] ∧ Cleared blanks ∧
      ∀ r, blankFrom mode (body ++ r) = blanks ++ blankFrom .code r := by
  have hnil : Cleared [] := fun b hb => nomatch hb
  fun_induction blankFrom mode s with
  | case1 => exact .inl hnil
  | case2 => exact absurd rfl hmode
  | case3 => exact absurd rfl hmode
  | case4 => exact absurd rfl hmode
  | case5 s =>
    exact .inr ⟨[Bytes.lf], s, [Bytes.lf], rfl, by simp, .cons (.inr rfl) hnil, fun r => by simp [blankFrom]⟩
  | case6 b s hb ih =>
    rcases ih (by simp) with ih | ⟨body, rest, blanks, rfl, -, hblanks, hbody⟩
    · exact .inl (.cons (.inl rfl) ih)
    · refine .inr ⟨b :: body, rest, Bytes.space :: blanks, rfl, by simp, .cons (.inl rfl) hblanks, fun r => ?_⟩
      rw [List.cons_append, blankFrom, if_neg hb, hbody, List.cons_append]
  | case7 s =>
    refine .inr ⟨[0x2A, 0x2F], s, [Bytes.space, Bytes.space], rfl, by simp, ?_, fun r => by simp [blankFrom]⟩
    exact .cons (.inl rfl) (.cons (.inl rfl) hnil)
  | case8 b s hb ih =>
    have hfirst : (if b = Bytes.lf then b else Bytes.space) = Bytes.space ∨
        (if b = Bytes.lf then b else Bytes.space) = Bytes.lf := by
      split
      · exact .inr ‹_›
      · exact .inl rfl
    rcases ih (by simp) with ih | ⟨body, rest, blanks, rfl, hne, hblanks, hbody⟩
    · exact .inl (.cons hfirst ih)
    · refine .inr ⟨b :: body, rest, _ :: blanks, rfl, by simp, .cons hfirst hblanks, fun r => ?_⟩
      obtain ⟨c, body, rfl⟩ := List.exists_cons_of_ne_nil hne
      rw [List.cons_append, blankFrom, hbody, List.cons_append]
      rintro s' rfl hs'
      exact hb (body ++ rest) rfl (congrArg (· :: (body ++ rest)) (List.cons.inj hs').1)

theorem closed_comment {mode : CommentMode} {mark : UInt8} {body blanks : Bytes}
    (hmark : ∀ s, blankComments (0x2F :: mark :: s) = Bytes.space :: Bytes.space :: blankFrom mode s)
    (hblanks : Cleared blanks) (hbody : ∀ r, blankFrom mode (body ++ r) = blanks ++ blankFrom .code r) :
    Outside (0x2F :: mark :: body) ∧ Cleared (blankComments (0x2F :: mark :: body)) := by
  have hc : ∀ r, blankComments (0x2F :: mark :: body ++ r) =
      Bytes.space :: Bytes.space :: blanks ++ blankComments r := by
    intro r
    rw [List.cons_append, List.cons_append, hmark, hbody]
    rfl
  have hself := hc []
  rw [List.append_nil, blankComments_nil, List.append_nil] at hself
  constructor
  · intro r
    rw [hc, hself]
  · rw [hself]
    exact .cons (.inl rfl) (.cons (.inl rfl) hblanks)

theorem comment_cases {text : Bytes} (h : OpensComment text) :
    Cleared (blankComments text) ∨
      ∃ c s, text = c ++ s ∧ c ≠ [] ∧ Outside c ∧ Cleared (blankComments c) := by
  have hmarks : ∃ mode mark s, text = 0x2F :: mark :: s ∧ mode ≠ CommentMode.code ∧
      ∀ s, blankComments (0x2F :: mark :: s) = Bytes.space :: Bytes.space :: blankFrom mode s := by
    rcases h with ⟨s, rfl⟩ | ⟨s, rfl⟩
    · exact ⟨.line, 0x2F, s, rfl, by simp, fun s => rfl⟩
    · exact ⟨.block, 0x2A, s, rfl, by simp, fun s => rfl⟩
  obtain ⟨mode, mark, s, rfl, hmode, hmark⟩ := hmarks
  rcases blankFrom_comment hmode s with hopen | ⟨body, rest, blanks, rfl, -, hblanks, hbody⟩
  · rw [hmark]
    exact .inl (.cons (.inl rfl) (.cons (.inl rfl) hopen))
  · exact .inr ⟨0x2F :: mark :: body, rest, rfl, by simp, closed_comment hmark hblanks hbody⟩

/-! ## Fronts of a text -/

/-- The front `u` of a text ends outside of comments, or with a slash that begins none before `rest`. -/
def Reaches (u rest : Bytes) : Prop :=
  Outside u ∨ ∃ front, u = front ++ [Bytes.slash] ∧ Outside front ∧ ¬ OpensComment (Bytes.slash :: rest)

namespace Reaches

variable {u rest : Bytes}

theorem outside (h : Reaches u rest) (hopens : OpensComment rest) : Outside u := by
  rcases h with h | ⟨front, -, -, hslash⟩
  · exact h
  · refine absurd ?_ hslash
    obtain ⟨s, rfl⟩ | ⟨s, rfl⟩ := hopens
    · exact opensComment_cons_iff.2 ⟨rfl, .inl rfl⟩
    · exact opensComment_cons_iff.2 ⟨rfl, .inl rfl⟩

theorem step {b : UInt8} (h : Reaches u (b :: rest)) (hb : ¬ OpensComment (b :: rest)) : Reaches (u ++ [b]) rest := by
  rcases h with h | ⟨front, rfl, hfront, hslash⟩
  · by_cases heq : b = Bytes.slash
    · subst heq
      exact .inr ⟨u, rfl, h, hb⟩
    · exact .inl (h.append (outside_singleton heq))
  · have hneither : b ≠ Bytes.slash ∧ b ≠ 0x2A := by simpa [opensComment_cons_iff] using hslash
    refine .inl ?_
    rw [List.append_assoc]
    refine hfront.append fun r => ?_
    have hnone : ∀ r, ¬ OpensComment (Bytes.slash :: b :: r) := by
      intro r
      simpa [opensComment_cons_iff] using hneither
    simp only [List.cons_append, List.nil_append]
    rw [blankComments_cons (hnone r), blankComments_cons (hnone []),
      blankComments_cons (not_opensComment hneither.1 r), blankComments_cons (not_opensComment hneither.1 [])]
    rfl

theorem pass {d s' : Bytes} (h : Reaches u (d ++ rest)) (hd : blankComments (d ++ rest) = d ++ s') :
    Reaches (u ++ d) rest ∧ s' = blankComments rest := by
  induction d generalizing u with
  | nil => exact ⟨by simpa using h, hd.symm⟩
  | cons b d ih =>
    have hnone : ¬ OpensComment (b :: (d ++ rest)) := by
      intro hopens
      obtain ⟨rfl, -⟩ := opensComment_cons_iff.1 hopens
      obtain ⟨s, hs⟩ | ⟨s, hs⟩ := hopens
      · rw [List.cons_append, ← hs] at hd
        exact absurd (List.cons.inj hd).1 (by decide)
      · rw [List.cons_append, ← hs] at hd
        exact absurd (List.cons.inj hd).1 (by decide)
    rw [List.cons_append, blankComments_cons hnone, List.cons_append, List.cons.injEq] at hd
    have hrest := ih (h.step hnone) hd.2
    rwa [List.append_assoc] at hrest

end Reaches

/-- Whatever follows, the texts differ in comments only. -/
def Interchangeable (p p' : Bytes) : Prop := ∀ r, blankComments (p ++ r) = blankComments (p' ++ r)

theorem Interchangeable.append {p p' : Bytes} (h : Interchangeable p p') (s : Bytes) :
    Interchangeable (p ++ s) (p' ++ s) := by
  intro r
  rw [List.append_assoc, List.append_assoc, h]

/-- A text that ends outside of comments may be followed by a comment or by blanks in its place. -/
theorem Interchangeable.blank {p p' c r : Bytes} (h : Interchangeable p p') (hp : Outside p)
    (hc : Cleared (blankComments c)) (hr : blankComments (c ++ r) = blankComments c ++ blankComments r) :
    blankComments (p ++ (c ++ r)) = blankComments (p' ++ (blankComments c ++ r)) := by
  have hblanks : Outside (blankComments c) := outside_of_not_mem (hc.not_mem (by decide) (by decide))
  have hself : blankComments (blankComments c) = blankComments c :=
    blankComments_of_not_mem (hc.not_mem (by decide) (by decide))
  rw [← h, hp, hp, hr, hblanks, hself]

/-! ## The same directives -/

/-- The texts have their line feeds and their directives at the same places, and the directives are equal. -/
inductive SameDirectives : Bytes → Bytes → Prop
  | nil : SameDirectives [] []
  | keep {b b' : UInt8} {s s' : Bytes} (hlf : b = Bytes.lf ↔ b' = Bytes.lf)
      (hb : ∀ d target, IsDirective d target → d <+: b :: s → Bytes.lf ∈ d)
      (hb' : ∀ d target, IsDirective d target → d <+: b' :: s' → Bytes.lf ∈ d)
      (h : SameDirectives s s') : SameDirectives (b :: s) (b' :: s')
  | same {d target s s' : Bytes} (hd : IsDirective d target) (hline : Bytes.lf ∉ d) (h : SameDirectives s s') :
      SameDirectives (d ++ s) (d ++ s')

def lineTargets (line : Bytes) : List Bytes := (cutDirectives line).2.map Prod.fst

theorem lines_cons {b : UInt8} (hb : b ≠ Bytes.lf) (s : Bytes) :
    ∃ line lines, Bytes.lines s = line :: lines ∧ Bytes.lines (b :: s) = (b :: line) :: lines := by
  obtain ⟨line, lines, hs⟩ := List.exists_cons_of_ne_nil (Bytes.split_ne_nil Bytes.lf s)
  refine ⟨line, lines, hs, ?_⟩
  rw [Bytes.lines, Bytes.split, if_neg hb, hs]

theorem lines_append {d : Bytes} (hd : Bytes.lf ∉ d) (s : Bytes) :
    ∃ line lines, Bytes.lines s = line :: lines ∧ Bytes.lines (d ++ s) = (d ++ line) :: lines := by
  induction d with
  | nil =>
    obtain ⟨line, lines, hs⟩ := List.exists_cons_of_ne_nil (Bytes.split_ne_nil Bytes.lf s)
    exact ⟨line, lines, hs, hs⟩
  | cons b d ih =>
    obtain ⟨hb, hd⟩ : Bytes.lf ≠ b ∧ Bytes.lf ∉ d := by simpa using hd
    obtain ⟨line, lines, hs, hlines⟩ := ih hd
    obtain ⟨line', lines', hs', hlines'⟩ := lines_cons hb.symm (d ++ s)
    rw [hlines] at hs'
    obtain ⟨rfl, rfl⟩ := List.cons.inj hs'
    exact ⟨line, lines, hs, hlines'⟩

theorem lineTargets_cons {b : UInt8} {s line : Bytes} {lines : List Bytes}
    (hlines : Bytes.lines (b :: s) = (b :: line) :: lines)
    (hb : ∀ d target, IsDirective d target → d <+: b :: s → Bytes.lf ∈ d) :
    lineTargets (b :: line) = lineTargets line := by
  have hnone : directive? (b :: line) = none := by
    refine Option.eq_none_iff_forall_ne_some.2 fun ⟨target, width⟩ hfound => ?_
    obtain ⟨d, rest, hline, hd, -⟩ := directive?_eq_some_iff.1 hfound
    have hlf : Bytes.lf ∉ b :: line := Bytes.not_mem_of_mem_split (s := b :: s) (by
      rw [show Bytes.split Bytes.lf (b :: s) = _ from hlines]
      simp)
    have hfront : b :: line <+: b :: s := by
      rw [← Bytes.join_split Bytes.lf (b :: s), show Bytes.split Bytes.lf (b :: s) = _ from hlines]
      cases lines <;> simp [Bytes.join]
    have hstarts : d <+: b :: line := ⟨rest, hline.symm⟩
    exact hlf (hstarts.subset (hb d target hd (hstarts.trans hfront)))
  rw [lineTargets, cutDirectives_cons hnone]
  rfl

theorem SameDirectives.lines {t t' : Bytes} (h : SameDirectives t t') :
    List.Forall₂ (fun line line' => lineTargets line = lineTargets line') (Bytes.lines t) (Bytes.lines t') := by
  induction h with
  | nil => exact .cons rfl .nil
  | @keep b b' s s' hlf hb hb' _ ih =>
    by_cases heq : b = Bytes.lf
    · have heq' := hlf.1 heq
      subst heq heq'
      exact .cons rfl ih
    · obtain ⟨line, lines, hs, hlines⟩ := lines_cons heq s
      obtain ⟨line', lines', hs', hlines'⟩ := lines_cons (fun hb => heq (hlf.2 hb)) s'
      rw [hs, hs'] at ih
      cases ih with
      | cons hfirst hrest =>
        rw [hlines, hlines']
        exact .cons (by rw [lineTargets_cons hlines hb, lineTargets_cons hlines' hb', hfirst]) hrest
  | @same d target s s' hd hline _ ih =>
    obtain ⟨line, lines, hs, hlines⟩ := lines_append hline s
    obtain ⟨line', lines', hs', hlines'⟩ := lines_append hline s'
    rw [hs, hs'] at ih
    cases ih with
    | cons hfirst hrest =>
      rw [hlines, hlines']
      refine .cons ?_ hrest
      unfold lineTargets at hfirst ⊢
      rw [cutDirectives_append hd, cutDirectives_append hd, List.map_cons, List.map_cons, hfirst]

theorem SameDirectives.of_dimmed {t t' : Bytes} (h : List.Forall₂ Dimmed t t') (ht : octet '#' ∉ t) :
    SameDirectives t t' := by
  induction h with
  | nil => exact .nil
  | @cons b b' t t' hb _ ih =>
    obtain ⟨hsign, hrest⟩ : octet '#' ≠ b ∧ octet '#' ∉ t := by simpa using ht
    have hbegins : ∀ {c : UInt8} {r : Bytes}, octet '#' ≠ c →
        ∀ d target, IsDirective d target → d <+: c :: r → Bytes.lf ∈ d := by
      intro c r hc d target hd hfront
      obtain ⟨gap, rfl, -, -⟩ := hd.spelled
      exact absurd (List.cons_prefix_cons.1 hfront).1 hc
    rcases hb with rfl | ⟨rfl, hlf⟩
    · exact .keep Iff.rfl (hbegins hsign) (hbegins hsign) (ih hrest)
    · exact .keep (iff_of_false hlf (by decide)) (hbegins hsign) (hbegins (by decide)) (ih hrest)

/-! ## Merges that take the same course -/

section Course

variable {m : Type → Type} [Monad m] [LawfulMonad m]

/-- The origins of merged lines, those that are complete and the one begun. -/
def originsOf (acc : List MergedLine × MergedLine) : List Location × Location :=
  (acc.1.map MergedLine.origin, acc.2.origin)

theorem origins_splice {begun begun' : MergedLine} (h : begun.origin = begun'.origin) (ls : List MergedLine) :
    originsOf (splice begun ls) = originsOf (splice begun' ls) := by
  cases ls with
  | nil => simp [splice, originsOf, h]
  | cons first rest =>
    rw [splice, splice]
    cases rest.getLast? <;> rfl

theorem origins_putIncluded {acc acc' : List MergedLine × MergedLine} (h : originsOf acc = originsOf acc')
    (after after' : Bytes) (ls : List MergedLine) :
    originsOf (putIncluded acc after ls) = originsOf (putIncluded acc' after' ls) := by
  obtain ⟨hdone, hbegun⟩ := Prod.mk.inj h
  obtain ⟨hcomplete, hlast⟩ := Prod.mk.inj (origins_splice hbegun ls)
  simp only [originsOf, putIncluded, List.map_append, hdone, hcomplete, hlast]

theorem origins_foldlM (follow : Bytes → Merge m (List MergedLine)) {ds ds' : List (Bytes × Bytes)}
    (h : ds.map Prod.fst = ds'.map Prod.fst) {acc acc' : List MergedLine × MergedLine}
    (hacc : originsOf acc = originsOf acc') :
    originsOf <$> ds.foldlM (fun acc (d : Bytes × Bytes) => do return putIncluded acc d.2 (← follow d.1)) acc =
      originsOf <$> ds'.foldlM (fun acc (d : Bytes × Bytes) => do return putIncluded acc d.2 (← follow d.1)) acc' := by
  induction ds generalizing ds' acc acc' with
  | nil =>
    obtain rfl : ds' = [] := by simpa using h.symm
    simp [hacc]
  | cons d ds ih =>
    cases ds' with
    | nil => cases h
    | cons d' ds' =>
      obtain ⟨htarget, hrest⟩ := List.cons.inj h
      rw [List.foldlM_cons, List.foldlM_cons, htarget]
      simp only [bind_assoc, pure_bind, map_bind]
      exact congrArg _ (funext fun ls => ih hrest (origins_putIncluded hacc d.2 d'.2 ls))

theorem origins_expandLine (follow : Location → Bytes → Merge m (List MergedLine)) (place : Location)
    {line line' : Bytes} (h : lineTargets line = lineTargets line') :
    List.map MergedLine.origin <$> expandLine follow place line =
      List.map MergedLine.origin <$> expandLine follow place line' := by
  have hstart : originsOf ([], ⟨(cutDirectives line).1, place⟩) =
      originsOf ([], ⟨(cutDirectives line').1, place⟩) := rfl
  have hfold := origins_foldlM (follow place) h hstart
  have hcourse : ∀ line : Bytes, List.map MergedLine.origin <$> expandLine follow place line =
      (fun o : List Location × Location => o.1 ++ [o.2]) <$> originsOf <$>
        (cutDirectives line).2.foldlM (fun acc (d : Bytes × Bytes) => do
          return putIncluded acc d.2 (← follow place d.1)) ([], ⟨(cutDirectives line).1, place⟩) := by
    intro line
    change List.map MergedLine.origin <$> (do
      let acc ← (cutDirectives line).2.foldlM (fun acc (d : Bytes × Bytes) => do
        return putIncluded acc d.2 (← follow place d.1)) ([], ⟨(cutDirectives line).1, place⟩)
      return acc.1 ++ [acc.2]) = _
    simp [originsOf]
  rw [hcourse, hcourse, hfold]

theorem origins_expandLines (follow : Location → Bytes → Merge m (List MergedLine)) (file : Path) (number : Nat)
    {lines lines' : List Bytes}
    (h : List.Forall₂ (fun line line' => lineTargets line = lineTargets line') lines lines') :
    List.map MergedLine.origin <$> expandLines follow file number lines =
      List.map MergedLine.origin <$> expandLines follow file number lines' := by
  induction h generalizing number with
  | nil => rfl
  | @cons line line' lines lines' hline _ ih =>
    have hcourse : ∀ (line : Bytes) (lines : List Bytes),
        List.map MergedLine.origin <$> expandLines follow file number (line :: lines) = do
          let first ← List.map MergedLine.origin <$> expandLine follow ⟨file, number⟩ line
          let rest ← List.map MergedLine.origin <$> expandLines follow file (number + 1) lines
          return first ++ rest := by
      intro line lines
      rw [expandLines]
      simp [map_bind]
    rw [hcourse, hcourse, origins_expandLine follow ⟨file, number⟩ hline, ih]

theorem map_resolveText (host : Host m) (opts : IncludeOptions) (path : Path) {t t' : Bytes} (h : SameDirectives t t') :
    Merged.map <$> resolveText host opts path t = Merged.map <$> resolveText host opts path t' := by
  have hexpand : ∀ root budget chain file,
      List.map MergedLine.origin <$> expand host opts root budget chain file t =
        List.map MergedLine.origin <$> expand host opts root budget chain file t' := by
    intro root budget chain file
    cases budget <;> exact origins_expandLines _ file 1 h.lines
  have hcourse : ∀ t : Bytes, Merged.map <$> resolveText host opts path t =
      SourceMap.mk <$> List.map MergedLine.origin <$>
        expand host opts (Path.dir (Path.absolute opts.cwd path)) opts.maxDepth [Path.absolute opts.cwd path]
          (Path.absolute opts.cwd path) t := by
    intro t
    simp [resolveText, Merged.ofLines]
  rw [hcourse, hcourse, hexpand]

end Course

/-! ## Merged texts -/

section Relation

variable {σ : Type} {host : Host (StateM σ)} {opts : IncludeOptions} {root : Path} {depth : Nat} {s s' : σ}
  {t out : Bytes} {files : List (Path × Bytes)}

namespace Substituted

theorem of_nil (h : Substituted host opts root depth s [] s' out files) : s' = s ∧ out = [] ∧ files = [] :=
  h.unique .done

theorem of_cons {b : UInt8} (hb : ∀ d target, IsDirective d target → d <+: b :: t → Bytes.lf ∈ d)
    (h : Substituted host opts root depth s (b :: t) s' out files) :
    ∃ out', out = b :: out' ∧ Substituted host opts root depth s t s' out' files := by
  generalize htext : b :: t = text at h
  cases h with
  | done => cases htext
  | keep _ h =>
    cases htext
    exact ⟨_, rfl, h⟩
  | replace hd hline => exact absurd (hb _ _ hd ⟨_, htext.symm⟩) hline

theorem of_directive {d target : Bytes} (hd : IsDirective d target) (hline : Bytes.lf ∉ d)
    (h : Substituted host opts root depth s (d ++ t) s' out files) :
    ∃ path text s1 s2 inner files' rest files'', host.Serves opts root depth s target path text s1 ∧
      Substituted host opts root (depth + 1) s1 text s2 inner files' ∧
      Substituted host opts root depth s2 t s' rest files'' ∧
      out = inner ++ rest ∧ files = (path, text) :: files' ++ files'' := by
  generalize htext : d ++ t = text at h
  cases h with
  | done => exact absurd (List.append_eq_nil_iff.1 htext).1 hd.ne_nil
  | keep hb => exact absurd (hb _ _ hd ⟨_, htext⟩) hline
  | replace hd' _ hserve hinner hrest =>
    obtain ⟨rfl, rfl, rfl⟩ := hd.unique hd' htext
    exact ⟨_, _, _, _, _, _, _, _, hserve, hinner, hrest, rfl, rfl⟩

end Substituted

/-- No directive begins in the front `c` of a text and ends on its line. -/
def Skips (c t : Bytes) : Prop :=
  ∀ c₁ c₂, c = c₁ ++ c₂ → c₂ ≠ [] → ∀ d target, IsDirective d target → d <+: c₂ ++ t → Bytes.lf ∈ d

namespace Skips

variable {c : Bytes}

theorem head {b : UInt8} (h : Skips (b :: c) t) :
    (∀ d target, IsDirective d target → d <+: b :: (c ++ t) → Bytes.lf ∈ d) ∧ Skips c t :=
  ⟨h [] (b :: c) rfl (by simp), fun c₁ c₂ hc => h (b :: c₁) c₂ (congrArg (b :: ·) hc)⟩

theorem of_prefix {t' : Bytes} (h : Skips c t) (ht : t' <+: t) : Skips c t' :=
  fun c₁ c₂ hc hne d target hd hfront =>
    h c₁ c₂ hc hne d target hd (hfront.trans ((List.prefix_append_right_inj c₂).2 ht))

theorem of_not_mem (h : octet '#' ∉ c) (t : Bytes) : Skips c t := by
  rintro c₁ c₂ rfl hne d target hd hfront
  obtain ⟨b, c₂, rfl⟩ := List.exists_cons_of_ne_nil hne
  obtain ⟨gap, rfl, -, -⟩ := hd.spelled
  obtain ⟨rfl, -⟩ := List.cons_prefix_cons.1 hfront
  exact absurd (List.mem_append_right c₁ List.mem_cons_self) h

theorem put (hskip : Skips c t) (h : Substituted host opts root depth s t s' out files) :
    Substituted host opts root depth s (c ++ t) s' (c ++ out) files := by
  induction c with
  | nil => exact h
  | cons b c ih => exact .keep hskip.head.1 (ih hskip.head.2)

theorem take (hskip : Skips c t) (h : Substituted host opts root depth s (c ++ t) s' out files) :
    ∃ out', out = c ++ out' ∧ Substituted host opts root depth s t s' out' files := by
  induction c generalizing out with
  | nil => exact ⟨out, rfl, h⟩
  | cons b c ih =>
    obtain ⟨out', rfl, hrest⟩ := h.of_cons hskip.head.1
    obtain ⟨out'', rfl, hlast⟩ := ih hskip.head.2 hrest
    exact ⟨out'', rfl, hlast⟩

end Skips

theorem SameDirectives.strip {c e t' : Bytes} (h : SameDirectives (c ++ t) (e ++ t')) (hlen : c.length = e.length)
    (he : octet '#' ∉ e) : Skips c t ∧ SameDirectives t t' := by
  induction c generalizing e with
  | nil =>
    obtain rfl := List.length_eq_zero_iff.1 hlen.symm
    refine ⟨?_, h⟩
    intro c₁ c₂ hc hne
    exact absurd (List.append_eq_nil_iff.1 hc.symm).2 hne
  | cons b c ih =>
    cases e with
    | nil => cases hlen
    | cons b' e =>
      obtain ⟨hb', he⟩ : octet '#' ≠ b' ∧ octet '#' ∉ e := by simpa using he
      generalize hleft : b :: c ++ t = left at h
      generalize hright : b' :: e ++ t' = right at h
      cases h with
      | nil => cases hleft
      | keep hlf hfree _ h =>
        cases hleft
        cases hright
        obtain ⟨hskip, hrest⟩ := ih h (Nat.succ.inj hlen) he
        refine ⟨?_, hrest⟩
        intro c₁ c₂ hc hne
        cases c₁ with
        | nil =>
          obtain rfl : b :: c = c₂ := hc
          exact hfree
        | cons x c₁ => exact hskip c₁ c₂ (List.cons.inj hc).2 hne
      | same hd =>
        obtain ⟨gap, rfl, -, -⟩ := hd.spelled
        exact absurd (List.cons.inj hright).1.symm hb'

theorem length_blankComments (s : Bytes) : (blankComments s).length = s.length :=
  (blankFrom_related .code s).length_eq.symm

/-- Wherever a comment of `t` begins, behind its front `x`, that front is merged to a text that ends outside of comments
if it stands behind `p`. Before `t` stands `u`. -/
def Unhidden (host : Host (StateM σ)) (opts : IncludeOptions) (root : Path) (depth : Nat) (s : σ) (u p t : Bytes) :
    Prop :=
  ∀ x v s1 out files, t = x ++ v → OpensComment v → Outside (u ++ x) →
    Substituted host opts root depth s x s1 out files → Outside (p ++ out)

theorem Unhidden.advance {u p o₀ : Bytes} {s1 : σ} (x₀ : Bytes) (h : Unhidden host opts root depth s u p (x₀ ++ t))
    (hput : ∀ x s2 out files, x <+: t → Substituted host opts root depth s1 x s2 out files →
      ∃ files', Substituted host opts root depth s (x₀ ++ x) s2 (o₀ ++ out) files') :
    Unhidden host opts root depth s1 (u ++ x₀) (p ++ o₀) t := by
  rintro x v s2 out files rfl hopens hout hsub
  obtain ⟨files', hall⟩ := hput x s2 out files (List.prefix_append x v) hsub
  have hend := h (x₀ ++ x) v s2 (o₀ ++ out) files' (List.append_assoc _ _ _).symm hopens (by simpa using hout) hall
  simpa using hend

/-- With the comments of `t` blank, the merge succeeds as before, and what it gives differs in comments only. -/
def Erases (host : Host (StateM σ)) (opts : IncludeOptions) (root : Path) (depth : Nat) (t : Bytes) : Prop :=
  ∀ s s' u p p' out files, Substituted host opts root depth s t s' out files → SameDirectives t (blankComments t) →
    Reaches u t → Interchangeable p p' → Unhidden host opts root depth s u p t →
    ∃ out', Substituted host opts root depth s (blankComments t) s' out' files ∧
      blankComments (p ++ out) = blankComments (p' ++ out')

namespace Erases

theorem code (hopens : ¬ OpensComment t) (ih : ∀ rest, rest.length < t.length → Erases host opts root depth rest) :
    Erases host opts root depth t := by
  intro s s' u p p' out files h hsame hreach hp hclear
  generalize hblank : blankComments t = t' at hsame
  cases hsame with
  | nil =>
    obtain ⟨rfl, rfl, rfl⟩ := h.of_nil
    exact ⟨[], .done, hp []⟩
  | @keep b b' t t' hlf hb hb' hsame =>
    rw [blankComments_cons hopens] at hblank
    obtain ⟨rfl, rfl⟩ := List.cons.inj hblank
    obtain ⟨out, rfl, hrest⟩ := h.of_cons hb
    have hclear' : Unhidden host opts root depth s (u ++ [b]) (p ++ [b]) t :=
      Unhidden.advance [b] hclear fun x s2 out files hx hsub => by
        refine ⟨files, .keep (fun d target hd hfront => hb d target hd (hfront.trans ?_)) hsub⟩
        exact List.cons_prefix_cons.2 ⟨rfl, hx⟩
    obtain ⟨out', hout', heq⟩ :=
      ih t (Nat.lt_succ_self _) s s' _ _ _ out files hrest hsame (hreach.step hopens) (hp.append [b]) hclear'
    exact ⟨b :: out', .keep hb' hout', by simpa using heq⟩
  | @same d target t t' hd hline hsame =>
    obtain ⟨hreach', rfl⟩ := hreach.pass hblank
    obtain ⟨path, text, s1, s2, inner, files', rest, files'', hserve, hinner, hrest, rfl, rfl⟩ :=
      h.of_directive hd hline
    have hclear' : Unhidden host opts root depth s2 (u ++ d) (p ++ inner) t :=
      Unhidden.advance _ hclear fun x s3 out files _ hsub => ⟨_, .replace hd hline hserve hinner hsub⟩
    have hlt : t.length < (d ++ t).length := by
      have hpos := List.length_pos_iff.2 hd.ne_nil
      rw [List.length_append]
      omega
    obtain ⟨out', hout', heq⟩ :=
      ih t hlt s2 s' _ _ _ rest files'' hrest hsame hreach' (hp.append inner) hclear'
    exact ⟨inner ++ out', .replace hd hline hserve hinner hout', by simpa using heq⟩

theorem comment (hopens : OpensComment t) (ih : ∀ rest, rest.length < t.length → Erases host opts root depth rest) :
    Erases host opts root depth t := by
  intro s s' u p p' out files h hsame hreach hp hclear
  have hu := hreach.outside hopens
  have hpo : Outside p := by
    have hnone := hclear [] t s [] [] rfl hopens (by simpa using hu) .done
    simpa using hnone
  rcases comment_cases hopens with hopen | ⟨c, rest, rfl, hne, hc, hcleared⟩
  · -- the comment goes on to the end of the text
    have hsign : octet '#' ∉ blankComments t := hopen.not_mem (by decide) (by decide)
    have hwhole : SameDirectives (t ++ []) (blankComments t ++ []) := by simpa using hsame
    obtain ⟨hskip, -⟩ := hwhole.strip (length_blankComments t).symm hsign
    obtain ⟨out, rfl, hrest⟩ := hskip.take (by simpa using h)
    obtain ⟨rfl, rfl, rfl⟩ := hrest.of_nil
    have hput := (Skips.of_not_mem hsign []).put hrest
    rw [List.append_nil] at hput
    exact ⟨blankComments t, hput, by simpa using hp.blank hpo hopen (r := []) (by simp [blankComments_nil])⟩
  · have hsign : octet '#' ∉ blankComments c := hcleared.not_mem (by decide) (by decide)
    rw [hc] at hsame ⊢
    obtain ⟨hskip, hsame'⟩ := hsame.strip (length_blankComments c).symm hsign
    obtain ⟨out, rfl, hrest⟩ := hskip.take h
    have hclear' : Unhidden host opts root depth s (u ++ c) (p ++ c) rest :=
      hclear.advance _ fun x s2 out files hx hsub => ⟨files, (hskip.of_prefix hx).put hsub⟩
    have hp' : Interchangeable (p ++ c) (p' ++ blankComments c) := by
      intro r
      rw [List.append_assoc, List.append_assoc]
      exact hp.blank hpo hcleared (hc r)
    have hlt : rest.length < (c ++ rest).length := by
      have hpos := List.length_pos_iff.2 hne
      rw [List.length_append]
      omega
    obtain ⟨out', hout', heq⟩ :=
      ih rest hlt s s' _ _ _ out files hrest hsame' (.inl (hu.append hc)) hp' hclear'
    exact ⟨blankComments c ++ out', (Skips.of_not_mem hsign _).put hout', by simpa using heq⟩

end Erases

theorem erases (host : Host (StateM σ)) (opts : IncludeOptions) (root : Path) (depth : Nat) (t : Bytes) :
    Erases host opts root depth t := by
  induction hn : t.length using Nat.strongRecOn generalizing t with
  | ind n ih =>
    subst hn
    by_cases hopens : OpensComment t
    · exact Erases.comment hopens fun rest hlt => ih rest.length hlt rest rfl
    · exact Erases.code hopens fun rest hlt => ih rest.length hlt rest rfl

end Relation

/-! ## What is recovered -/

theorem Scene.read_of_blank {m m' : Merged} (htext : blankComments m'.text = blankComments m.text)
    (hmap : m'.map = m.map) (strict : Bool) :
    read strict m' = ((read strict m).1, (read strict m).2.map fun r => { r with source := m'.text }) := by
  have hscene : ofMerged m' = ofMerged m := by rw [ofMerged, ofMerged, htext, hmap]
  unfold read
  rw [hscene, hmap]
  dsimp only
  cases (ofMerged m).declarations with
  | error e => rfl
  | ok found =>
    obtain ⟨survey, declaration, declared⟩ := found
    dsimp only
    cases (ofMerged m).attachLayouts strict survey declaration declared.ordered declared with
    | mk notes attached => cases attached <;> rfl

theorem recover_of_blank {σ : Type} (host : Host (StateM σ)) (opts : ParseOptions) {m m' : Merged}
    (htext : blankComments m'.text = blankComments m.text) (hmap : m'.map = m.map) :
    recover host opts m' = (fun r => { r with source := m'.text }) <$> recover host opts m := by
  unfold recover
  rw [Scene.read_of_blank htext hmap]
  cases Scene.read opts.strict m with
  | mk notes result =>
    simp only [map_bind]
    refine congrArg _ (funext fun _ => ?_)
    cases result with
    | error e => rfl
    | ok r => rfl

theorem Merge.run_map {σ α β : Type} (f : α → β) (x : Merge (StateM σ) α) (s : σ) :
    (f <$> x).run.run s = ((x.run.run s).1.map f, (x.run.run s).2) := by
  rw [ExceptT.run_map, StateT.run_map]
  cases hx : x.run.run s with
  | mk r s' => cases r <;> rfl

/-- A parse but for the merged text: what it declares and where its lines come from, or the error. -/
def declaredIn (r : Parsed Recovered) : Parsed (Stages × Exports × SourceMap) :=
  r.map fun x => (x.stages, x.exports, x.map)

/-- In every world, blanking the comments of a text leaves a parse of it as it is, error and log included, if the
directives stay and no comment of the text begins inside of one that an included text leaves open. -/
theorem comments_inert (s : ParserSettings) (path : Path) (w : World) {text : Bytes}
    (hsame : SameDirectives text (blankComments text))
    (hclear : ∀ u v w' out files, text = u ++ v → OpensComment v → Outside u →
      Substituted s.host (s.options w).toIncludeOptions (Path.dir (Path.absolute w.disk.cwdPath path)) 1 w u w' out
        files → Outside out) :
    declaredIn ((parseSource s path (blankComments text)).run w).1 = declaredIn ((parseSource s path text).run w).1 ∧
      ((parseSource s path (blankComments text)).run w).2 = ((parseSource s path text).run w).2 := by
  rw [run_parseSource, run_parseSource]
  have hmap := congrArg (fun x => x.run.run w)
    (map_resolveText s.host (s.options w).toIncludeOptions path hsame)
  simp only [Merge.run_map] at hmap
  unfold parseText
  cases hrun : (resolveText s.host (s.options w).toIncludeOptions path text).run.run w with
  | mk r w₁ =>
    cases hrun' : (resolveText s.host (s.options w).toIncludeOptions path (blankComments text)).run.run w with
    | mk r' w₁' =>
      rw [hrun, hrun'] at hmap
      obtain ⟨hresult, rfl⟩ := Prod.mk.inj hmap
      cases r with
      | error e =>
        cases r' with
        | ok m' => cases hresult
        | error e' =>
          cases hresult
          rw [Merge.run_bind_of_error hrun, Merge.run_bind_of_error hrun']
          exact ⟨rfl, rfl⟩
      | ok m =>
        cases r' with
        | error e' => cases hresult
        | ok m' =>
          obtain ⟨ls, files, rfl, hmerges⟩ := resolveText_merges hrun
          obtain ⟨ls', files', rfl, hmerges'⟩ := resolveText_merges hrun'
          obtain ⟨out', hout', htext⟩ := erases _ _ _ _ text _ _ [] [] [] _ _ hmerges.substituted hsame
            (.inl outside_nil) (fun _ => rfl) fun x v w' out files => hclear x v w' out files
          obtain ⟨-, rfl, -⟩ := hout'.unique hmerges'.substituted
          have horigins : (Merged.ofLines ls').map = (Merged.ofLines ls).map := (Except.ok.inj hresult).symm
          rw [Merge.run_bind_of_ok hrun, Merge.run_bind_of_ok hrun', recover_of_blank _ _ htext.symm horigins,
            Merge.run_map]
          refine ⟨?_, rfl⟩
          cases ((recover s.host (s.options w) (Merged.ofLines ls)).run.run w₁).1 <;> rfl

/-- Behind an included text with a comment of its own stands another one, and a stage in it is not found. -/
theorem comments_inert_included :
    let s : ParserSettings := { reader := .memory [("/f", "/* a */ struct A \x7b float x; \x7d; ")] }
    let text : Bytes := "#include \"/f\" // float4 ps_main() \x7b\x7d\nfloat4 vs_main() \x7b\x7d"
    ((parseSource s "/r" text).run {}).1.isOk = true ∧
      declaredIn ((parseSource s "/r" (blankComments text)).run {}).1 =
        declaredIn ((parseSource s "/r" text).run {}).1 := by
  intro s text
  have hdirective : IsDirective "#include \"/f\"" "/f" :=
    ⟨⟨" ", by decide, by decide, by decide +kernel⟩, by decide, by decide⟩
  have hsame : SameDirectives text (blankComments text) :=
    .same hdirective (by decide) (SameDirectives.of_dimmed (blankFrom_related .code _) (by decide))
  refine ⟨by decide +kernel, (comments_inert s "/r" {} hsame fun u v w' out files htext hopens _ hsub => ?_).1⟩
  have honly : ∀ n < text.length + 1, OpensComment (text.drop n) → text.take n = utf8 "#include \"/f\" " := by
    decide +kernel
  have hu : u = utf8 "#include \"/f\" " := by
    have hlen : u.length < text.length + 1 := by
      rw [htext, List.length_append]
      omega
    have hfront := honly u.length hlen (by rw [htext, List.drop_left]; exact hopens)
    rwa [htext, List.take_left] at hfront
  subst hu
  have hrun : ((mergeText s "/r" "#include \"/f\" ").run {}).1.toOption.map Merged.text =
      some (utf8 "/* a */ struct A \x7b float x; \x7d;  ") := by decide +kernel
  rw [run_mergeText] at hrun
  cases hmerge : (resolveText s.host (s.options {}).toIncludeOptions "/r" "#include \"/f\" ").run.run {} with
  | mk r w₁ =>
    rw [hmerge] at hrun
    cases r with
    | error e => cases hrun
    | ok merged =>
      obtain ⟨ls, files', rfl, hmerges⟩ := resolveText_merges hmerge
      obtain ⟨-, rfl, -⟩ := hsub.unique hmerges.substituted
      rw [show (Merged.ofLines ls).text = _ from Option.some.inj hrun]
      exact fun r => rfl

/-- Directives come first: one in a comment is followed, and a comment that an included text leaves open hides the marks
of the next one. -/
theorem comments_felt :
    let missing : Bytes := "// #include \"/x\""
    let s : ParserSettings := { reader := .memory [("/f", "/*")] }
    let hidden : Bytes := "#include \"/f\"/**/float4 vs_main() \x7b\x7d"
    ((parseSource s "/r" missing).run {}).1 =
        .error ⟨"/r", 1, .badInclude (.unreadable "/x" ⟨"open", "/x", .absent⟩)⟩ ∧
      ((parseSource s "/r" (blankComments missing)).run {}).1.isOk = true ∧
      ((parseSource s "/r" hidden).run {}).1.map (fun r => r.stages.size) = .ok 1 ∧
      ((parseSource s "/r" (blankComments hidden)).run {}).1.map (fun r => r.stages.size) = .ok 0 := by
  decide +kernel

end ShaderForge
