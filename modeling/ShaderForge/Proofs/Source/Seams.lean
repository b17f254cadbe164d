import Mathlib.Data.List.Infix
import ShaderForge.Proofs.Source.Provenance

/-!
# ShaderForge.Proofs.Source.Seams

Directives that a merge leaves behind. The merged text is a row of pieces, each a stretch of one file, and the search
for directives stays within a piece: one that is put together from two pieces is never found.

* `Complete`            — no line of the text holds a directive.
* `Pieced`              — `Substituted`, with a seam where an included text begins and where it ends.
* `Straddled`           — a directive lies across a seam.
* `complete_flatten_iff` — the merged text is complete if and only if none does.
* `Tidy`                — a directive with no number sign before it and no quote behind it on its line.
* `resolveText_complete` — a merge of tidy files is complete, and merging it again leaves it as it is.
-/

namespace ShaderForge

variable {σ : Type}

/-! ## Lines and parts of lines -/

theorem infix_append_lf_iff {part line rest : Bytes} (hne : part ≠ []) (hpart : Bytes.lf ∉ part) :
    part <:+: line ++ Bytes.lf :: rest ↔ part <:+: line ∨ part <:+: rest := by
  constructor
  · rintro ⟨u, v, hparts⟩
    rw [List.append_assoc] at hparts
    rcases List.append_eq_append_iff.1 hparts with ⟨a, rfl, ha⟩ | ⟨a, rfl, ha⟩
    · obtain ⟨more, rfl⟩ := prefix_of_prefix_append hpart ⟨v, ha⟩
      exact .inl ⟨u, more, by simp⟩
    · cases a with
      | nil =>
        obtain ⟨c, part, rfl⟩ := List.exists_cons_of_ne_nil hne
        exact absurd ((List.cons.inj ha).1 ▸ List.mem_cons_self) hpart
      | cons c a =>
        rw [(List.cons.inj ha).2]
        exact .inr ⟨a, v, by simp⟩
  · rintro (h | h)
    · exact h.trans (List.prefix_append _ _).isInfix
    · exact h.trans ⟨line ++ [Bytes.lf], [], by simp⟩

theorem infix_joinLines_iff {part : Bytes} (hne : part ≠ []) (hpart : Bytes.lf ∉ part) (lines : List Bytes) :
    part <:+: Bytes.joinLines lines ↔ ∃ line ∈ lines, part <:+: line := by
  induction lines with
  | nil => simp [Bytes.joinLines, Bytes.join, hne]
  | cons line lines ih =>
    cases lines with
    | nil => simp [Bytes.joinLines, Bytes.join]
    | cons next lines =>
      have hjoin : Bytes.joinLines (line :: next :: lines) =
          line ++ Bytes.lf :: Bytes.joinLines (next :: lines) := by simp [Bytes.joinLines, Bytes.join]
      rw [hjoin, infix_append_lf_iff hne hpart, ih]
      simp

/-- No line of the text holds a directive. -/
def Complete (text : Bytes) : Prop := ∀ line ∈ Bytes.lines text, DirectiveFree line

theorem complete_iff {text : Bytes} :
    Complete text ↔ ∀ d target, IsDirective d target → Bytes.lf ∉ d → ¬ d <:+: text := by
  have hjoin : Bytes.joinLines (Bytes.lines text) = text := Bytes.join_split Bytes.lf text
  constructor
  · intro h d target hd hlf hpart
    rw [← hjoin, infix_joinLines_iff hd.ne_nil hlf] at hpart
    obtain ⟨line, hline, hpart⟩ := hpart
    exact h line hline d target hd hpart
  · intro h line hline d target hd hpart
    have hlf : Bytes.lf ∉ d := fun hmem => Bytes.not_mem_of_mem_split hline (hpart.subset hmem)
    refine h d target hd hlf ?_
    rw [← hjoin, infix_joinLines_iff hd.ne_nil hlf]
    exact ⟨line, hline, hpart⟩

theorem complete_nil : Complete [] := complete_iff.2 fun _ _ hd _ hpart => hd.ne_nil (List.infix_nil.1 hpart)

theorem IsDirective.getLast? {d target : Bytes} (h : IsDirective d target) : d.getLast? = some Bytes.quote := by
  obtain ⟨gap, rfl, -, -⟩ := h.spelled
  rw [← List.cons_append, ← List.append_assoc, ← List.append_assoc, List.getLast?_concat]

/-! ## Pieces -/

/-- `Substituted`, with the result in pieces: a piece ends where an included text begins and where it ends. -/
inductive Pieced (host : Host (StateM σ)) (opts : IncludeOptions) (root : Path) :
    Nat → σ → Bytes → σ → List Bytes → List (Path × Bytes) → Prop
  | done {depth : Nat} {s : σ} : Pieced host opts root depth s [] s [[]] []
  | keep {depth : Nat} {s s' : σ} {b : UInt8} {text piece : Bytes} {pieces : List Bytes}
      {files : List (Path × Bytes)}
      (hb : ∀ d target, IsDirective d target → d <+: b :: text → Bytes.lf ∈ d)
      (h : Pieced host opts root depth s text s' (piece :: pieces) files) :
      Pieced host opts root depth s (b :: text) s' ((b :: piece) :: pieces) files
  | replace {depth : Nat} {s s1 s2 s3 : σ} {d target rest text : Bytes} {inner outer : List Bytes} {path : Path}
      {files files' : List (Path × Bytes)} (hd : IsDirective d target) (hline : Bytes.lf ∉ d)
      (hserve : host.Serves opts root depth s target path text s1)
      (hinner : Pieced host opts root (depth + 1) s1 text s2 inner files)
      (hrest : Pieced host opts root depth s2 rest s3 outer files') :
      Pieced host opts root depth s (d ++ rest) s3 ([] :: (inner ++ outer)) ((path, text) :: files ++ files')

/-- Somewhere a directive begins on the left of a seam and ends on its right. -/
def Straddled (pieces : List Bytes) : Prop :=
  ∃ left right u d₁ d₂ v target, pieces = left ++ right ∧ left.flatten = u ++ d₁ ∧ right.flatten = d₂ ++ v ∧
    d₁ ≠ [] ∧ d₂ ≠ [] ∧ IsDirective (d₁ ++ d₂) target ∧ Bytes.lf ∉ d₁ ++ d₂

theorem exists_seam {pieces : List Bytes} {d : Bytes} (hne : d ≠ []) (hpieces : ∀ p ∈ pieces, ¬ d <:+: p)
    {u v : Bytes} (h : pieces.flatten = u ++ (d ++ v)) :
    ∃ left right d₁ d₂, pieces = left ++ right ∧ left.flatten = u ++ d₁ ∧ right.flatten = d₂ ++ v ∧
      d = d₁ ++ d₂ ∧ d₁ ≠ [] ∧ d₂ ≠ [] := by
  induction pieces generalizing u with
  | nil => simp [hne] at h
  | cons p pieces ih =>
    -- the directive begins behind the first piece, or in it
    have hlater : ∀ u' : Bytes, u = p ++ u' → pieces.flatten = u' ++ (d ++ v) →
        ∃ left right d₁ d₂, p :: pieces = left ++ right ∧ left.flatten = u ++ d₁ ∧ right.flatten = d₂ ++ v ∧
          d = d₁ ++ d₂ ∧ d₁ ≠ [] ∧ d₂ ≠ [] := by
      rintro u' rfl hrest
      obtain ⟨left, right, d₁, d₂, rfl, hleft, hright, hd, hd₁, hd₂⟩ :=
        ih (fun q hq => hpieces q (List.mem_cons_of_mem p hq)) hrest
      exact ⟨p :: left, right, d₁, d₂, rfl, by simp [hleft], hright, hd, hd₁, hd₂⟩
    rw [List.flatten_cons] at h
    rcases List.append_eq_append_iff.1 h with ⟨a, rfl, ha⟩ | ⟨a, rfl, ha⟩
    · exact hlater _ rfl ha
    · rcases List.append_eq_append_iff.1 ha with ⟨c, rfl, hc⟩ | ⟨c, rfl, hc⟩
      · exact absurd ⟨u, c, by simp⟩ (hpieces _ List.mem_cons_self)
      · cases a with
        | nil => exact hlater [] (by simp) (by simpa using hc)
        | cons b a =>
          cases c with
          | nil => exact absurd ⟨u, [], by simp⟩ (hpieces _ List.mem_cons_self)
          | cons b' c => exact ⟨[_], pieces, b :: a, b' :: c, rfl, by simp, hc, rfl, by simp, by simp⟩

theorem complete_flatten_iff {pieces : List Bytes} (h : ∀ p ∈ pieces, Complete p) :
    Complete pieces.flatten ↔ ¬ Straddled pieces := by
  constructor
  · rintro hcomplete ⟨left, right, u, d₁, d₂, v, target, rfl, hleft, hright, -, -, hd, hlf⟩
    refine complete_iff.1 hcomplete _ target hd hlf ⟨u, v, ?_⟩
    rw [List.flatten_append, hleft, hright]
    simp
  · refine fun hseams => complete_iff.2 fun d target hd hlf hpart => hseams ?_
    obtain ⟨u, v, hparts⟩ := hpart
    rw [List.append_assoc] at hparts
    obtain ⟨left, right, d₁, d₂, hall, hleft, hright, rfl, hd₁, hd₂⟩ :=
      exists_seam hd.ne_nil (fun p hp => complete_iff.1 (h p hp) d target hd hlf) hparts.symm
    exact ⟨left, right, u, d₁, d₂, v, target, hall, hleft, hright, hd₁, hd₂, hd, hlf⟩

section Relation

variable {host : Host (StateM σ)} {opts : IncludeOptions} {root : Path} {depth : Nat} {s s' : σ} {text : Bytes}
  {files : List (Path × Bytes)}

theorem Substituted.pieced {out : Bytes} (h : Substituted host opts root depth s text s' out files) :
    ∃ piece pieces, Pieced host opts root depth s text s' (piece :: pieces) files ∧
      (piece :: pieces).flatten = out := by
  induction h with
  | done => exact ⟨[], [], .done, rfl⟩
  | keep hb _ ih =>
    obtain ⟨piece, pieces, hpieced, rfl⟩ := ih
    exact ⟨_, _, .keep hb hpieced, rfl⟩
  | replace hd hline hserve _ _ ihinner ihrest =>
    obtain ⟨piece, inner, hinner, rfl⟩ := ihinner
    obtain ⟨piece', outer, hrest, rfl⟩ := ihrest
    exact ⟨_, _, .replace hd hline hserve hinner hrest, by simp⟩

theorem Pieced.front {pieces : List Bytes} (h : Pieced host opts root depth s text s' pieces files) :
    ∀ piece ∈ pieces.head?, piece <+: text := by
  induction h with
  | done => simp
  | keep _ _ ih =>
    intro piece hpiece
    obtain rfl := Option.some.inj hpiece
    exact List.cons_prefix_cons.2 ⟨rfl, ih _ rfl⟩
  | replace =>
    intro piece hpiece
    obtain rfl := Option.some.inj hpiece
    exact List.nil_prefix

theorem Pieced.read {pieces : List Bytes} (h : Pieced host opts root depth s text s' pieces files) :
    ∀ f ∈ files, ∃ t t', (host.read f.1).run t = (.ok f.2, t') := by
  induction h with
  | done => simp
  | keep _ _ ih => exact ih
  | replace _ _ hserve _ _ ihinner ihrest =>
    obtain ⟨s1, s2, -, hread, -⟩ := hserve
    intro f hf
    rcases List.mem_append.1 hf with hf | hf
    · rcases List.mem_cons.1 hf with rfl | hf
      · exact ⟨s1, s2, hread⟩
      · exact ihinner f hf
    · exact ihrest f hf

theorem Pieced.complete {pieces : List Bytes} (h : Pieced host opts root depth s text s' pieces files) :
    ∀ p ∈ pieces, Complete p := by
  induction h with
  | done => simpa using complete_nil
  | @keep depth s s' b text piece pieces files hb h ih =>
    intro p hp
    rcases List.mem_cons.1 hp with rfl | hp
    · refine complete_iff.2 fun d target hd hlf hpart => ?_
      rcases List.infix_cons_iff.1 hpart with hfront | hinside
      · have hpiece : b :: piece <+: b :: text := List.cons_prefix_cons.2 ⟨rfl, h.front piece rfl⟩
        exact hlf (hb d target hd (hfront.trans hpiece))
      · exact complete_iff.1 (ih piece List.mem_cons_self) d target hd hlf hinside
    · exact ih p (List.mem_cons_of_mem _ hp)
  | replace _ _ _ _ _ ihinner ihrest =>
    intro p hp
    rcases List.mem_cons.1 hp with rfl | hp
    · exact complete_nil
    · exact (List.mem_append.1 hp).elim (ihinner p) (ihrest p)

end Relation

/-! ## Tidy files -/

/-- The text up to the first line feed. -/
def firstLine (text : Bytes) : Bytes := text.takeWhile (· ≠ Bytes.lf)

theorem prefix_firstLine_iff {d text : Bytes} : d <+: firstLine text ↔ d <+: text ∧ Bytes.lf ∉ d := by
  induction text generalizing d with
  | nil =>
    constructor
    · intro h
      rw [List.prefix_nil.1 h]
      exact ⟨List.prefix_rfl, List.not_mem_nil⟩
    · exact fun h => h.1
  | cons b text ih =>
    cases d with
    | nil => simp
    | cons c d =>
      unfold firstLine at ih ⊢
      rw [List.takeWhile_cons, List.cons_prefix_cons]
      by_cases hb : b = Bytes.lf
      · subst hb
        simp only [ne_eq, not_true_eq_false, decide_false, Bool.false_eq_true, if_false]
        constructor
        · intro h
          exact absurd (List.prefix_nil.1 h) (List.cons_ne_nil c d)
        · rintro ⟨⟨rfl, -⟩, hlf⟩
          exact absurd List.mem_cons_self hlf
      · rw [if_pos (by simpa using hb), List.cons_prefix_cons, ih, List.mem_cons, not_or]
        constructor
        · rintro ⟨rfl, hstarts, hlf⟩
          exact ⟨⟨rfl, hstarts⟩, fun h => hb h.symm, hlf⟩
        · rintro ⟨⟨rfl, hstarts⟩, -, hlf⟩
          exact ⟨rfl, hstarts, hlf⟩

/-- The rest of a line from a number sign on: a directive begins there, and no quote follows it, or there is no
directive in it. -/
def tidyRest (line : Bytes) : Bool :=
  match directive? line with
  | some (_, width) => !(line.drop width).contains Bytes.quote
  | none => (cutDirectives line).2.isEmpty

/-- On its line a directive has no number sign before it and no quote behind it. -/
def Tidy (text : Bytes) : Prop :=
  ∀ s ∈ text.tails, s.head? = some (octet '#') → tidyRest (firstLine s) = true

instance (text : Bytes) : Decidable (Tidy text) := inferInstanceAs (Decidable (∀ s ∈ text.tails, _))

namespace Tidy

theorem suffix {s text : Bytes} (h : Tidy text) (hs : s <:+ text) : Tidy s :=
  fun t ht => h t ((List.mem_tails t text).2 (((List.mem_tails t s).1 ht).trans hs))

theorem head {s : Bytes} (h : Tidy s) (hs : s.head? = some (octet '#')) : tidyRest (firstLine s) = true :=
  h s ((List.mem_tails s s).2 List.suffix_rfl) hs

theorem behind {d target rest : Bytes} (h : Tidy (d ++ rest)) (hd : IsDirective d target) (hlf : Bytes.lf ∉ d) :
    Bytes.quote ∉ firstLine rest := by
  have hfirst : firstLine (d ++ rest) = d ++ firstLine rest :=
    List.takeWhile_append_of_pos fun b hb => by simpa using fun heq : b = Bytes.lf => hlf (heq ▸ hb)
  have htidy := h.head (hd.head? rest)
  rw [hfirst, tidyRest, directive?_append hd] at htidy
  simpa using htidy

theorem free {s : Bytes} (h : Tidy (octet '#' :: s))
    (hs : ∀ d target, IsDirective d target → d <+: octet '#' :: s → Bytes.lf ∈ d) :
    DirectiveFree (firstLine (octet '#' :: s)) := by
  have htidy := h.head rfl
  unfold tidyRest at htidy
  split at htidy
  · rename_i target width hfound
    obtain ⟨d, rest, hparts, hd, -⟩ := directive?_eq_some_iff.1 hfound
    obtain ⟨hstarts, hlf⟩ := prefix_firstLine_iff.1 ⟨rest, hparts.symm⟩
    exact absurd (hs d target hd hstarts) hlf
  · exact (eq_of_cutDirectives (Prod.ext rfl (List.isEmpty_iff.1 htidy))).2

end Tidy

theorem Complete.append {left right : Bytes} (hleft : Complete left) (hright : Complete right)
    (hquote : Bytes.quote ∉ firstLine right) : Complete (left ++ right) := by
  refine complete_iff.2 fun d target hd hlf hpart => ?_
  obtain ⟨u, v, hparts⟩ := hpart
  rw [List.append_assoc] at hparts
  rcases List.append_eq_append_iff.1 hparts with ⟨a, rfl, ha⟩ | ⟨a, rfl, ha⟩
  · rcases List.append_eq_append_iff.1 ha with ⟨c, rfl, hc⟩ | ⟨c, rfl, hc⟩
    · exact complete_iff.1 hleft d target hd hlf ⟨u, c, by simp⟩
    · cases c with
      | nil => exact complete_iff.1 hleft _ target hd hlf ⟨u, [], by simp⟩
      | cons b c =>
        have hlast : Bytes.quote ∈ b :: c := by
          have hend := hd.getLast?
          rw [List.getLast?_append_of_ne_nil _ (List.cons_ne_nil b c)] at hend
          exact List.mem_of_getLast? hend
        have hlfc : Bytes.lf ∉ b :: c := fun hmem => hlf (List.mem_append_right a hmem)
        have hwithin : b :: c <+: firstLine right := prefix_firstLine_iff.2 ⟨⟨v, hc.symm⟩, hlfc⟩
        exact hquote (hwithin.subset hlast)
  · exact complete_iff.1 hright d target hd hlf ⟨a, v, by simp [ha]⟩

section Relation

variable {host : Host (StateM σ)} {opts : IncludeOptions} {root : Path} {depth : Nat} {s s' : σ} {text out : Bytes}
  {files : List (Path × Bytes)}

theorem Substituted.firstLine_eq (h : Substituted host opts root depth s text s' out files)
    (hfree : DirectiveFree (firstLine text)) : firstLine out = firstLine text := by
  induction h with
  | done => rfl
  | @keep depth s s' b text out files _ _ ih =>
    unfold firstLine at hfree ih ⊢
    by_cases hb : b = Bytes.lf
    · simp [hb]
    · have hcons : ∀ t : Bytes, (b :: t).takeWhile (· ≠ Bytes.lf) = b :: t.takeWhile (· ≠ Bytes.lf) :=
        fun t => List.takeWhile_cons_of_pos (by simpa using hb)
      rw [hcons] at hfree
      rw [hcons, hcons, ih fun d target hd hpart => hfree d target hd (hpart.trans (List.suffix_cons b _).isInfix)]
  | replace hd hline =>
    exact absurd (prefix_firstLine_iff.2 ⟨List.prefix_append _ _, hline⟩).isInfix (hfree _ _ hd)

theorem Substituted.complete_of_tidy (h : Substituted host opts root depth s text s' out files) (htext : Tidy text)
    (hfiles : ∀ f ∈ files, Tidy f.2) : Complete out := by
  induction h with
  | done => exact complete_nil
  | @keep depth s s' b text out files hb h ih =>
    have hout := ih (htext.suffix (List.suffix_cons b text)) hfiles
    refine complete_iff.2 fun d target hd hlf hpart => ?_
    rcases List.infix_cons_iff.1 hpart with hfront | hinside
    · -- it would begin at a number sign that begins no directive of the file
      obtain rfl : b = octet '#' := by
        obtain ⟨gap, rfl, -, -⟩ := hd.spelled
        exact (List.cons_prefix_cons.1 hfront).1.symm
      have hfree := htext.free hb
      rw [← (Substituted.keep hb h).firstLine_eq hfree] at hfree
      exact hfree d target hd (prefix_firstLine_iff.2 ⟨hfront, hlf⟩).isInfix
    · exact complete_iff.1 hout d target hd hlf hinside
  | @replace depth s s1 s2 s3 d target rest text inner out path files files' hd hline _ _ hrest ihinner ihrest =>
    have hinner := ihinner (hfiles (path, text) (by simp)) fun f hf => hfiles f (by simp [hf])
    have hout := ihrest (htext.suffix (List.suffix_append d rest)) fun f hf => hfiles f (by simp [hf])
    have hquote : Bytes.quote ∉ firstLine rest := htext.behind hd hline
    have hrestFree : DirectiveFree (firstLine rest) := fun d' target' hd' hpart =>
      hquote (hpart.subset (List.mem_of_getLast? hd'.getLast?))
    refine hinner.append hout ?_
    rwa [hrest.firstLine_eq hrestFree]

end Relation

/-! ## Merged text -/

/-- When merging succeeds, a directive is left in the merged text only if it lies across a seam. Without one the text is
complete, and merging it again gives it back. So it is if the text and all files read are tidy. -/
theorem resolveText_complete (host : Host (StateM σ)) (opts : IncludeOptions) (path : Path) (text : Bytes)
    {s s' : σ} {merged : Merged} (h : (resolveText host opts path text).run.run s = (.ok merged, s')) :
    ∃ pieces files,
      Pieced host opts (Path.dir (Path.absolute opts.cwd path)) 1 s text s' pieces files ∧
      pieces.flatten = merged.text ∧
      (Complete merged.text ↔ ¬ Straddled pieces) ∧
      (¬ Straddled pieces → ∀ t, ∃ map,
        (resolveText host opts path merged.text).run.run t = (.ok ⟨merged.text, map⟩, t)) ∧
      (∀ f ∈ files, ∃ t t', (host.read f.1).run t = (.ok f.2, t')) ∧
      (Tidy text → (∀ f ∈ files, Tidy f.2) → ¬ Straddled pieces) := by
  obtain ⟨ls, files, rfl, hmerges⟩ := resolveText_merges h
  obtain ⟨piece, pieces, hpieced, hflatten⟩ := hmerges.substituted.pieced
  have hiff := complete_flatten_iff hpieced.complete
  rw [hflatten] at hiff
  refine ⟨piece :: pieces, files, hpieced, hflatten, hiff, fun hseams t => ?_, hpieced.read, fun htext hfiles => ?_⟩
  · exact resolveText_of_free host opts path (hiff.2 hseams) t
  · exact hiff.1 (hmerges.substituted.complete_of_tidy htext hfiles)

/-- Directives in the middle of lines, with number signs behind them, one in an included file. -/
theorem resolveText_complete_tidy :
    let shelf : Shelf :=
      { read := fun p =>
          if p = "/two" then .ok "1\n2#" else if p = "/more" then .ok "x + #include \"/two\";"
          else .error ⟨"open", p, .absent⟩
        present := fun _ => false }
    let final : Bytes := "y = x + 1\n2#; # \n1\n2#"
    Complete final ∧
      ∃ map, (resolveText shelf.host { cwd := "/" } "/r" final).run.run () = (.ok ⟨final, map⟩, ()) := by
  intro shelf final
  let text : Bytes := "y = #include \"/more\" # \n#include \"/two\""
  have htext : ((resolveText shelf.host { cwd := "/" } "/r" text).run.run ()).1.toOption.map Merged.text =
      some final := by decide +kernel
  have htidy : ∀ p t, shelf.read p = .ok t → Tidy t := by
    intro p t hread
    simp only [shelf] at hread
    split at hread
    · cases hread
      decide +kernel
    · split at hread
      · cases hread
        decide +kernel
      · cases hread
  cases hrun : (resolveText shelf.host { cwd := "/" } "/r" text).run.run () with
  | mk r s =>
    rw [hrun] at htext
    cases r with
    | error e => cases htext
    | ok merged =>
      obtain ⟨pieces, files, -, -, hiff, hagain, hread, hseams⟩ :=
        resolveText_complete shelf.host { cwd := "/" } "/r" text hrun
      have hfiles : ∀ f ∈ files, Tidy f.2 := by
        intro f hf
        obtain ⟨t, t', hf⟩ := hread f hf
        exact htidy f.1 f.2 (congrArg Prod.fst hf)
      have hnone := hseams (by decide +kernel) hfiles
      rw [← show merged.text = final from Option.some.inj htext]
      exact ⟨hiff.2 hnone, hagain hnone ()⟩

/-- Two pieces make a directive, which is left in the merged text and followed when that is merged again. -/
theorem resolveText_incomplete :
    let shelf : Shelf :=
      { read := fun p =>
          if p = "/a" then .ok "#inc" else if p = "/b" then .ok "B" else .error ⟨"open", p, .absent⟩
        present := fun _ => false }
    let final : Bytes := "#include \"/b\""
    ((resolveText shelf.host { cwd := "/" } "/r" "#include \"/a\"lude \"/b\"").run.run ()).1.toOption.map Merged.text =
        some final ∧
      ¬ Complete final ∧
      ((resolveText shelf.host { cwd := "/" } "/r" final).run.run ()).1.toOption.map Merged.text = some (utf8 "B") := by
  intro shelf final
  refine ⟨by decide +kernel, fun hcomplete => ?_, by decide +kernel⟩
  have hcut := cutDirectives_of_free (hcomplete final (by decide))
  exact absurd hcut (by decide)

end ShaderForge
