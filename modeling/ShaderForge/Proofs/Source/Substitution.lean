import ShaderForge.Proofs.Source.Directives
import ShaderForge.Proofs.Source.IncludeResolution

/-!
# ShaderForge.Proofs.Source.Substitution

Merging is textual substitution: each directive gives way to the text of the file that it names, with the
directives of that text replaced in the same way, and every other octet stays where it is.

* `Host.Serves`   — the host finds the file of a target and reads it.
* `Substituted`   — a text, what it becomes, and the files read on the way, in order.
* `Traced`        — a merged line around a line of one of the files, whose place it carries.
* `expand_merges` — by induction on how much deeper includes may nest.
* `resolveText_substitutes` — the merged text is what substitution gives, and nothing else is.
-/

namespace ShaderForge

namespace Bytes

theorem join_append_cons (sep : Bytes) (done : List Bytes) (a b : Bytes) (rest : List Bytes) :
    join sep (done ++ (a ++ b) :: rest) = join sep (done ++ [a]) ++ join sep (b :: rest) := by
  induction done with
  | nil => cases rest <;> simp [join]
  | cons c done ih =>
    cases done with
    | nil => cases rest <;> simp [join]
    | cons d done =>
      simp only [List.cons_append, join] at ih ⊢
      rw [ih]
      simp

theorem join_append {as bs : List Bytes} (sep : Bytes) (ha : as ≠ []) (hb : bs ≠ []) :
    join sep (as ++ bs) = join sep as ++ (sep ++ join sep bs) := by
  induction as with
  | nil => exact absurd rfl ha
  | cons a as ih =>
    cases as with
    | nil =>
      obtain ⟨b, bs, rfl⟩ := List.exists_cons_of_ne_nil hb
      simp [join]
    | cons c as =>
      have h := ih (List.cons_ne_nil c as)
      rw [List.cons_append] at h
      rw [List.cons_append, List.cons_append, join, h, join]
      simp

theorem join_split (sep : UInt8) (s : Bytes) : join [sep] (split sep s) = s := by
  induction s with
  | nil => rfl
  | cons b s ih =>
    rw [split]
    obtain ⟨piece, pieces, hsplit⟩ := List.exists_cons_of_ne_nil (split_ne_nil sep s)
    rw [hsplit] at ih ⊢
    split
    · rename_i hb
      simp [join, ih, hb]
    · cases pieces with
      | nil => simpa [join] using ih
      | cons p pieces => simpa [join] using ih

end Bytes

/-! ## Substitution -/

variable {σ : Type}

/-- Asked for a target in state `s`, the host finds the file at `path` and reads `text` there. -/
def Host.Serves (host : Host (StateM σ)) (opts : IncludeOptions) (root : Path) (depth : Nat) (s : σ)
    (target : Bytes) (path : Path) (text : Bytes) (s' : σ) : Prop :=
  ∃ s1 s2, (locateTarget host opts root target).run s = (path, s1) ∧
    (host.read path).run s1 = (.ok text, s2) ∧
    (host.note (.included target path depth)).run s2 = ((), s')

/-- From state `s` on, replacing the directives of a text `depth` files deep gives a text and a state; the files
read for that are listed in order. A directive stands on one line, the first one from the left is taken, and the
search goes on behind it. -/
inductive Substituted (host : Host (StateM σ)) (opts : IncludeOptions) (root : Path) :
    Nat → σ → Bytes → σ → Bytes → List (Path × Bytes) → Prop
  | done {depth : Nat} {s : σ} : Substituted host opts root depth s [] s [] []
  | keep {depth : Nat} {s s' : σ} {b : UInt8} {text out : Bytes} {files : List (Path × Bytes)}
      (hb : ∀ d target, IsDirective d target → d <+: b :: text → Bytes.lf ∈ d)
      (h : Substituted host opts root depth s text s' out files) :
      Substituted host opts root depth s (b :: text) s' (b :: out) files
  | replace {depth : Nat} {s s1 s2 s3 : σ} {d target rest text inner out : Bytes} {path : Path}
      {files files' : List (Path × Bytes)} (hd : IsDirective d target) (hline : Bytes.lf ∉ d)
      (hserve : host.Serves opts root depth s target path text s1)
      (hinner : Substituted host opts root (depth + 1) s1 text s2 inner files)
      (hrest : Substituted host opts root depth s2 rest s3 out files') :
      Substituted host opts root depth s (d ++ rest) s3 (inner ++ out) ((path, text) :: files ++ files')

section Relation

variable {host : Host (StateM σ)} {opts : IncludeOptions} {root : Path} {depth : Nat}

theorem Host.Serves.unique {s s' s'' : σ} {target text text' : Bytes} {path path' : Path}
    (h : host.Serves opts root depth s target path text s')
    (h' : host.Serves opts root depth s target path' text' s'') : path = path' ∧ text = text' ∧ s' = s'' := by
  obtain ⟨s1, s2, hlocate, hread, hnote⟩ := h
  obtain ⟨t1, t2, hlocate', hread', hnote'⟩ := h'
  rw [hlocate] at hlocate'
  cases hlocate'
  rw [hread] at hread'
  cases hread'
  rw [hnote] at hnote'
  cases hnote'
  exact ⟨rfl, rfl, rfl⟩

theorem Substituted.unique {s s' s'' : σ} {text out out' : Bytes} {files files' : List (Path × Bytes)}
    (h : Substituted host opts root depth s text s' out files)
    (h' : Substituted host opts root depth s text s'' out' files') : s' = s'' ∧ out = out' ∧ files = files' := by
  induction h generalizing s'' out' files' with
  | done =>
    generalize htext : ([] : Bytes) = text at h'
    cases h' with
    | done => exact ⟨rfl, rfl, rfl⟩
    | keep => cases htext
    | replace hd => exact absurd (List.append_eq_nil_iff.1 htext.symm).1 hd.ne_nil
  | @keep depth s s' b text out files hb _ ih =>
    generalize htext : b :: text = whole at h'
    cases h' with
    | done => cases htext
    | keep _ h' =>
      cases htext
      obtain ⟨rfl, rfl, rfl⟩ := ih h'
      exact ⟨rfl, rfl, rfl⟩
    | replace hd hline => exact absurd (hb _ _ hd ⟨_, htext.symm⟩) hline
  | @replace depth s s1 s2 s3 d target rest text inner out path files _ hd hline hserve _ _ ihinner ihrest =>
    generalize htext : d ++ rest = whole at h'
    cases h' with
    | done => exact absurd (List.append_eq_nil_iff.1 htext).1 hd.ne_nil
    | keep hb => exact absurd (hb _ _ hd ⟨_, htext⟩) hline
    | replace hd' _ hserve' hinner' hrest' =>
      obtain ⟨rfl, rfl, rfl⟩ := hd.unique hd' htext
      obtain ⟨rfl, rfl, rfl⟩ := hserve.unique hserve'
      obtain ⟨rfl, rfl, rfl⟩ := ihinner hinner'
      obtain ⟨rfl, rfl, rfl⟩ := ihrest hrest'
      exact ⟨rfl, rfl, rfl⟩

theorem prefix_of_prefix_append {d line rest : Bytes} (hline : Bytes.lf ∉ d) (h : d <+: line ++ Bytes.lf :: rest) :
    d <+: line := by
  rcases List.prefix_or_prefix_of_prefix h (List.prefix_append line _) with h' | ⟨mid, rfl⟩
  · exact h'
  · rw [List.prefix_append_right_inj] at h
    cases mid with
    | nil => simp
    | cons b mid =>
      rw [List.cons_prefix_cons] at h
      exact absurd (by simp [h.1]) hline

theorem Substituted.append_line {s s1 s2 : σ} {line rest out out' : Bytes} {files files' : List (Path × Bytes)}
    (h : Substituted host opts root depth s line s1 out files)
    (h' : Substituted host opts root depth s1 rest s2 out' files') :
    Substituted host opts root depth s (line ++ Bytes.lf :: rest) s2 (out ++ Bytes.lf :: out') (files ++ files') := by
  induction h with
  | done =>
    refine .keep (fun d target hd hfront => ?_) h'
    obtain ⟨c, d, rfl⟩ := List.exists_cons_of_ne_nil hd.ne_nil
    rw [(List.cons_prefix_cons.1 hfront).1]
    exact List.mem_cons_self
  | keep hb _ ih =>
    refine .keep (fun d target hd hfront => ?_) (ih h')
    by_contra hline
    exact hline (hb d target hd (prefix_of_prefix_append hline hfront))
  | replace hd hline hserve hinner _ _ ihrest =>
    have hall := Substituted.replace hd hline hserve hinner (ihrest h')
    simpa using hall

end Relation

/-! ## Runs that succeed -/

namespace Merge

variable {α β : Type}

theorem run_bind_ok {x : Merge (StateM σ) α} {f : α → Merge (StateM σ) β} {s s' : σ} {b : β}
    (h : (x >>= f).run.run s = (.ok b, s')) :
    ∃ a s1, x.run.run s = (.ok a, s1) ∧ (f a).run.run s1 = (.ok b, s') := by
  rw [ExceptT.run_bind, StateT.run_bind] at h
  cases hx : x.run.run s with
  | mk r s1 =>
    rw [hx] at h
    cases r with
    | ok a => exact ⟨a, s1, rfl, h⟩
    | error e => cases h

theorem run_bind_of_ok {x : Merge (StateM σ) α} {f : α → Merge (StateM σ) β} {s s' : σ} {a : α}
    (h : x.run.run s = (.ok a, s')) : (x >>= f).run.run s = (f a).run.run s' := by
  rw [ExceptT.run_bind, StateT.run_bind, h]
  rfl

theorem run_lift_ok {x : StateM σ α} {s s' : σ} {a : α}
    (h : (liftM x : Merge (StateM σ) α).run.run s = (.ok a, s')) : x.run s = (a, s') := by
  change (x >>= fun a => pure (Except.ok a)).run s = _ at h
  rw [StateT.run_bind] at h
  cases hx : x.run s with
  | mk b s1 =>
    rw [hx] at h
    cases h
    rfl

end Merge

/-! ## Lines put behind one another -/

/-- One directive of a line: what it gives goes behind the line begun, and the text behind it follows. -/
def putIncluded (acc : List MergedLine × MergedLine) (after : Bytes) (ls : List MergedLine) :
    List MergedLine × MergedLine :=
  (acc.1 ++ (splice acc.2 ls).1, { (splice acc.2 ls).2 with text := (splice acc.2 ls).2.text ++ after })

theorem expandLine_eq (follow : Location → Bytes → Merge (StateM σ) (List MergedLine)) (place : Location)
    (line : Bytes) :
    expandLine follow place line = do
      let acc ← (cutDirectives line).2.foldlM (fun acc (d : Bytes × Bytes) => do
        return putIncluded acc d.2 (← follow place d.1))
        ([], ⟨(cutDirectives line).1, place⟩)
      return acc.1 ++ [acc.2] := rfl

/-- Splicing joins the line begun to the first included line, and no other line changes. -/
theorem splice_lines (begun first : MergedLine) (rest : List MergedLine) :
    (splice begun (first :: rest)).1 ++ [(splice begun (first :: rest)).2] =
      { first with text := begun.text ++ first.text } :: rest := by
  rw [splice]
  cases hlast : rest.getLast? with
  | none =>
    rw [List.getLast?_eq_none_iff.1 hlast]
    rfl
  | some last =>
    obtain ⟨front, rfl⟩ := List.getLast?_eq_some_iff.1 hlast
    simp

theorem text_append_begun (done : List MergedLine) (begun : MergedLine) (more : Bytes) :
    (Merged.ofLines (done ++ [{ begun with text := begun.text ++ more }])).text =
      (Merged.ofLines (done ++ [begun])).text ++ more := by
  have h := Bytes.join_append_cons [Bytes.lf] (done.map MergedLine.text) begun.text more []
  simpa [Merged.ofLines, Bytes.joinLines, Bytes.join] using h

theorem text_splice (done : List MergedLine) (begun : MergedLine) {ls : List MergedLine} (hls : ls ≠ []) :
    (Merged.ofLines (done ++ ((splice begun ls).1 ++ [(splice begun ls).2]))).text =
      (Merged.ofLines (done ++ [begun])).text ++ (Merged.ofLines ls).text := by
  obtain ⟨first, rest, rfl⟩ := List.exists_cons_of_ne_nil hls
  rw [splice_lines]
  have h := Bytes.join_append_cons [Bytes.lf] (done.map MergedLine.text) begun.text first.text
    (rest.map MergedLine.text)
  simpa [Merged.ofLines, Bytes.joinLines] using h

/-! ## Where lines come from -/

/-- A merged line around a line of one of the files. That line holds no directive, and the merged line carries
its place. -/
structure Traced (files : List (Path × Bytes)) (l : MergedLine) : Prop where
  oneLine : Bytes.lf ∉ l.text
  source : ∃ text line, (l.origin.file, text) ∈ files ∧ 1 ≤ l.origin.line ∧
    (Bytes.lines text)[l.origin.line - 1]? = some line ∧ DirectiveFree line ∧ line <:+: l.text

namespace Traced

variable {files files' : List (Path × Bytes)} {l : MergedLine}

theorem mono (h : Traced files l) (hsub : files ⊆ files') : Traced files' l := by
  obtain ⟨text, line, hmem, hrest⟩ := h.source
  exact ⟨h.oneLine, text, line, hsub hmem, hrest⟩

theorem around (h : Traced files l) {before after : Bytes} (hbefore : Bytes.lf ∉ before)
    (hafter : Bytes.lf ∉ after) : Traced files { l with text := before ++ l.text ++ after } := by
  obtain ⟨text, line, hmem, hpos, hget, hfree, hinfix⟩ := h.source
  refine ⟨?_, text, line, hmem, hpos, hget, hfree, hinfix.trans ⟨before, after, rfl⟩⟩
  simp [hbefore, hafter, h.oneLine]

end Traced

/-- A text `depth` files deep, that of `file`, merged into lines. -/
structure Merges (host : Host (StateM σ)) (opts : IncludeOptions) (root : Path) (depth : Nat) (file : Path) (s : σ)
    (text : Bytes) (s' : σ) (ls : List MergedLine) (files : List (Path × Bytes)) : Prop where
  substituted : Substituted host opts root depth s text s' (Merged.ofLines ls).text files
  ne_nil : ls ≠ []
  traced : ∀ l ∈ ls, Traced ((file, text) :: files) l

section Runs

variable {host : Host (StateM σ)} {opts : IncludeOptions} {root : Path} {depth : Nat}
  {follow : Location → Bytes → Merge (StateM σ) (List MergedLine)}

/-- What following a directive gives are the merged lines of the file that the host serves. -/
def Follows (host : Host (StateM σ)) (opts : IncludeOptions) (root : Path) (depth : Nat)
    (follow : Location → Bytes → Merge (StateM σ) (List MergedLine)) : Prop :=
  ∀ place target s ls s', (follow place target).run.run s = (.ok ls, s') →
    ∃ path text s1 files, host.Serves opts root depth s target path text s1 ∧
      Merges host opts root (depth + 1) path s1 text s' ls files

/-- The rest of a line behind what is merged of it already. The induction takes the line from its front; the line
begun need not be traced as long as a directive is still to come. -/
theorem foldlM_merges (hfollow : Follows host opts root depth follow) (place : Location) (line : Bytes)
    (hline : Bytes.lf ∉ line) (done : List MergedLine) (begun : MergedLine) {s s' : σ}
    {acc : List MergedLine × MergedLine}
    (h : ((cutDirectives line).2.foldlM (fun acc (d : Bytes × Bytes) => do
        return putIncluded acc d.2 (← follow place d.1))
      (done, { begun with text := begun.text ++ (cutDirectives line).1 })).run.run s = (.ok acc, s')) :
    ∃ out files, (Merged.ofLines (acc.1 ++ [acc.2])).text = (Merged.ofLines (done ++ [begun])).text ++ out ∧
      Substituted host opts root depth s line s' out files ∧
      ∀ known, files ⊆ known → Bytes.lf ∉ begun.text → (∀ l ∈ done, Traced known l) →
        (DirectiveFree line → Traced known { begun with text := begun.text ++ line }) →
        ∀ l ∈ acc.1 ++ [acc.2], Traced known l := by
  induction line using directive_induction generalizing done begun s with
  | nil =>
    cases h
    refine ⟨[], [], by simp [cutDirectives, cutDirectivesFrom], .done, fun known _ _ hdone hbegun l hl => ?_⟩
    rcases List.mem_append.1 hl with hl | hl
    · exact hdone l hl
    · rw [List.mem_singleton.1 hl]
      exact hbegun directiveFree_nil
  | keep b line hb ih =>
    rw [cutDirectives_cons hb] at h
    have hlf : Bytes.lf ≠ b ∧ Bytes.lf ∉ line := by simpa using hline
    obtain ⟨out, files, hout, hsub, htraced⟩ :=
      ih hlf.2 done { begun with text := begun.text ++ [b] } (by simpa using h)
    refine ⟨b :: out, files, ?_, .keep ?_ hsub, fun known hknown hbegun hdone hfree => ?_⟩
    · rw [hout, text_append_begun]
      simp
    · intro d target hd hfront
      exact absurd hfront (not_prefix_of_directive?_eq_none hb hd)
    · refine htraced known hknown (by simp [hbegun, hlf.1]) hdone fun hrest => ?_
      simpa using hfree (hrest.cons hb)
  | replace d target line hd ih =>
    rw [cutDirectives_append hd, List.foldlM_cons] at h
    have hlf : Bytes.lf ∉ d ∧ Bytes.lf ∉ line := by simpa using hline
    obtain ⟨acc', s1, hput, h⟩ := Merge.run_bind_ok h
    obtain ⟨ls, s2, hls, hput⟩ := Merge.run_bind_ok hput
    cases hput
    obtain ⟨path, text, s0, inner, hserve, hmerges⟩ := hfollow place target s ls s1 hls
    simp only [List.append_nil] at h
    obtain ⟨out, files, hout, hsub, htraced⟩ := ih hlf.2 _ _ h
    refine ⟨(Merged.ofLines ls).text ++ out, (path, text) :: inner ++ files, ?_,
      .replace hd hlf.1 hserve hmerges.substituted hsub, fun known hknown hbegun hdone _ => ?_⟩
    · rw [hout, List.append_assoc, text_splice _ _ hmerges.ne_nil, List.append_assoc]
    · obtain ⟨hinner, hfiles⟩ := List.append_subset.1 hknown
      -- all lines of the splice are traced: the first has the line begun before it, the others are as included
      have hspliced : ∀ l ∈ (splice begun ls).1 ++ [(splice begun ls).2], Traced known l := by
        obtain ⟨first, rest, rfl⟩ := List.exists_cons_of_ne_nil hmerges.ne_nil
        rw [splice_lines]
        intro l hl
        rcases List.mem_cons.1 hl with rfl | hl
        · have hfirst := (hmerges.traced first List.mem_cons_self).mono hinner
          simpa using hfirst.around hbegun (List.not_mem_nil : Bytes.lf ∉ [])
        · exact (hmerges.traced l (List.mem_cons_of_mem _ hl)).mono hinner
      have hlast := hspliced (splice begun ls).2 (by simp)
      refine htraced known hfiles hlast.oneLine (fun l hl => ?_) fun _ => ?_
      · rcases List.mem_append.1 hl with hl | hl
        · exact hdone l hl
        · exact hspliced l (List.mem_append_left _ hl)
      · simpa using hlast.around (List.not_mem_nil : Bytes.lf ∉ []) hlf.2

theorem expandLine_merges (hfollow : Follows host opts root depth follow) {place : Location} {line : Bytes}
    (hline : Bytes.lf ∉ line) {s s' : σ} {ls : List MergedLine}
    (h : (expandLine follow place line).run.run s = (.ok ls, s')) :
    ls ≠ [] ∧ ∃ files, Substituted host opts root depth s line s' (Merged.ofLines ls).text files ∧
      ∀ known, files ⊆ known → (DirectiveFree line → Traced known ⟨line, place⟩) → ∀ l ∈ ls, Traced known l := by
  rw [expandLine_eq] at h
  obtain ⟨acc, s1, hfold, h⟩ := Merge.run_bind_ok h
  cases h
  obtain ⟨out, files, hout, hsub, htraced⟩ := foldlM_merges hfollow place line hline [] ⟨[], place⟩ hfold
  rw [show (Merged.ofLines ([] ++ [(⟨[], place⟩ : MergedLine)])).text = [] from rfl, List.nil_append] at hout
  refine ⟨by simp, files, hout ▸ hsub, fun known hknown hfree => ?_⟩
  exact htraced known hknown List.not_mem_nil (by simp) hfree

theorem expandLines_merges (hfollow : Follows host opts root depth follow) {file : Path} {text : Bytes}
    {before lines : List Bytes} (hlines : Bytes.lines text = before ++ lines) (hne : lines ≠ []) {s s' : σ}
    {ls : List MergedLine}
    (h : (expandLines follow file (before.length + 1) lines).run.run s = (.ok ls, s')) :
    ls ≠ [] ∧ ∃ files, Substituted host opts root depth s (Bytes.joinLines lines) s' (Merged.ofLines ls).text files ∧
      ∀ l ∈ ls, Traced ((file, text) :: files) l := by
  induction lines generalizing before s ls with
  | nil => exact absurd rfl hne
  | cons line lines ih =>
    rw [expandLines] at h
    obtain ⟨first, s1, hfirst, h⟩ := Merge.run_bind_ok h
    obtain ⟨rest, s2, hrest, h⟩ := Merge.run_bind_ok h
    cases h
    have hline : Bytes.lf ∉ line := Bytes.not_mem_of_mem_split (s := text) (by
      rw [show Bytes.split Bytes.lf text = _ from hlines]
      simp)
    have hplace : DirectiveFree line → ∀ known, (file, text) ∈ known → Traced known ⟨line, file, before.length + 1⟩ :=
      fun hfree known hmem =>
        ⟨hline, text, line, hmem, by simp, by simp [hlines], hfree, List.infix_refl line⟩
    obtain ⟨hfirstne, files, hsub, htraced⟩ := expandLine_merges hfollow hline hfirst
    cases lines with
    | nil =>
      cases hrest
      refine ⟨by simpa using hfirstne, files, by simpa [Bytes.joinLines, Bytes.join] using hsub, fun l hl => ?_⟩
      rw [List.append_nil] at hl
      exact htraced _ (List.subset_cons_self _ _) (fun hfree => hplace hfree _ List.mem_cons_self) l hl
    | cons next lines =>
      have hlines' : Bytes.lines text = (before ++ [line]) ++ next :: lines := by simpa using hlines
      obtain ⟨hrestne, files', hsub', htraced'⟩ := ih hlines' (List.cons_ne_nil _ _) (by simpa using hrest)
      refine ⟨by simp [hfirstne], files ++ files', ?_, fun l hl => ?_⟩
      · have hfirstne' : first.map MergedLine.text ≠ [] := by simpa using hfirstne
        have hrestne' : rest.map MergedLine.text ≠ [] := by simpa using hrestne
        have hjoin := Bytes.join_append [Bytes.lf] hfirstne' hrestne'
        have hall := hsub.append_line hsub'
        simpa [Merged.ofLines, Bytes.joinLines, Bytes.join, hjoin] using hall
      · rcases List.mem_append.1 hl with hl | hl
        · refine htraced _ ?_ (fun hfree => hplace hfree _ List.mem_cons_self) l hl
          exact fun x hx => List.mem_cons_of_mem _ (List.mem_append_left _ hx)
        · refine (htraced' l hl).mono ?_
          exact List.cons_subset_cons _ (List.subset_append_right _ _)

theorem fetch_serves {chain : List Path} {place : Location} {target : Bytes} {s s' : σ} {path : Path} {text : Bytes}
    (h : (fetch host opts root chain place target).run.run s = (.ok (path, text), s')) :
    host.Serves opts root chain.length s target path text s' := by
  unfold fetch at h
  obtain ⟨p, s1, hlocate, h⟩ := Merge.run_bind_ok h
  split at h
  · cases h
  obtain ⟨found, s2, hread, h⟩ := Merge.run_bind_ok h
  cases found with
  | error e => cases h
  | ok t =>
    obtain ⟨_, s3, hnote, h⟩ := Merge.run_bind_ok h
    cases h
    exact ⟨s1, s2, Merge.run_lift_ok hlocate, Merge.run_lift_ok hread, Merge.run_lift_ok hnote⟩

theorem merges_of_expandLines (hfollow : Follows host opts root depth follow) {file : Path} {text : Bytes}
    {s s' : σ} {ls : List MergedLine}
    (h : (expandLines follow file 1 (Bytes.lines text)).run.run s = (.ok ls, s')) :
    ∃ files, Merges host opts root depth file s text s' ls files := by
  have hlines : Bytes.lines text = [] ++ Bytes.lines text := rfl
  obtain ⟨hne, files, hsub, htraced⟩ :=
    expandLines_merges hfollow hlines (Bytes.split_ne_nil Bytes.lf text) h
  rw [show Bytes.joinLines (Bytes.lines text) = text from Bytes.join_split Bytes.lf text] at hsub
  exact ⟨files, hsub, hne, htraced⟩

/-- A merge that succeeds replaces the directives of its text, and its lines carry the places they come from. -/
theorem expand_merges {budget : Nat} {chain : List Path} {file : Path} {text : Bytes} {s s' : σ}
    {ls : List MergedLine} (h : (expand host opts root budget chain file text).run.run s = (.ok ls, s')) :
    ∃ files, Merges host opts root chain.length file s text s' ls files := by
  induction budget generalizing chain file text s s' ls with
  | zero =>
    rw [expand] at h
    refine merges_of_expandLines (fun place target s ls s' h => ?_) h
    cases h
  | succ budget ih =>
    rw [expand] at h
    refine merges_of_expandLines (fun place target s ls s' h => ?_) h
    obtain ⟨⟨path, text⟩, s1, hfetch, h⟩ := Merge.run_bind_ok h
    obtain ⟨files, hfiles⟩ := ih h
    rw [List.length_append] at hfiles
    exact ⟨path, text, s1, files, fetch_serves hfetch, hfiles⟩

end Runs

theorem resolveText_merges {host : Host (StateM σ)} {opts : IncludeOptions} {path : Path} {text : Bytes}
    {s s' : σ} {merged : Merged} (h : (resolveText host opts path text).run.run s = (.ok merged, s')) :
    ∃ ls files, merged = Merged.ofLines ls ∧
      Merges host opts (Path.dir (Path.absolute opts.cwd path)) 1 (Path.absolute opts.cwd path) s text s' ls files := by
  unfold resolveText at h
  obtain ⟨ls, s1, hexpand, h⟩ := Merge.run_bind_ok h
  cases h
  obtain ⟨files, hfiles⟩ := expand_merges hexpand
  exact ⟨ls, files, rfl, hfiles⟩

theorem expandLines_of_free {follow : Location → Bytes → Merge (StateM σ) (List MergedLine)} {lines : List Bytes}
    (h : ∀ line ∈ lines, DirectiveFree line) (file : Path) (number : Nat) (s : σ) :
    ∃ ls, (expandLines follow file number lines).run.run s = (.ok ls, s) ∧ ls.map MergedLine.text = lines := by
  induction lines generalizing number with
  | nil => exact ⟨[], rfl, rfl⟩
  | cons line lines ih =>
    obtain ⟨ls, hls, htext⟩ := ih (fun l hl => h l (List.mem_cons_of_mem line hl)) (number + 1)
    have hline : (expandLine follow ⟨file, number⟩ line).run.run s = (.ok [⟨line, file, number⟩], s) := by
      unfold expandLine
      rw [cutDirectives_of_free (h line List.mem_cons_self)]
      rfl
    refine ⟨⟨line, file, number⟩ :: ls, ?_, by simp [htext]⟩
    rw [expandLines, Merge.run_bind_of_ok hline, Merge.run_bind_of_ok hls]
    rfl

/-- A text without directives stays as it is, and the host is not asked for anything. -/
theorem resolveText_of_free (host : Host (StateM σ)) (opts : IncludeOptions) (path : Path) {text : Bytes}
    (h : ∀ line ∈ Bytes.lines text, DirectiveFree line) (s : σ) :
    ∃ map, (resolveText host opts path text).run.run s = (.ok ⟨text, map⟩, s) := by
  have hexpand : ∀ budget chain file, ∃ ls,
      (expand host opts (Path.dir (Path.absolute opts.cwd path)) budget chain file text).run.run s = (.ok ls, s) ∧
        ls.map MergedLine.text = Bytes.lines text := by
    intro budget chain file
    cases budget <;> exact expandLines_of_free h file 1 s
  obtain ⟨ls, hls, htext⟩ := hexpand opts.maxDepth [Path.absolute opts.cwd path] (Path.absolute opts.cwd path)
  refine ⟨⟨ls.map MergedLine.origin⟩, ?_⟩
  rw [resolveText, Merge.run_bind_of_ok hls]
  have hjoin : Bytes.joinLines (ls.map MergedLine.text) = text := by rw [htext]; exact Bytes.join_split Bytes.lf text
  exact congrArg (fun t => (Except.ok (⟨t, _⟩ : Merged), s)) hjoin

/-- When merging succeeds, its text is the root text with the directives replaced, and substitution leads to no
other text, no other state of the host and no other files. -/
theorem resolveText_substitutes (host : Host (StateM σ)) (opts : IncludeOptions) (path : Path) (text : Bytes)
    {s s' : σ} {merged : Merged} (h : (resolveText host opts path text).run.run s = (.ok merged, s')) :
    ∃ files, ∀ s'' out files',
      Substituted host opts (Path.dir (Path.absolute opts.cwd path)) 1 s text s'' out files' ↔
        s'' = s' ∧ out = merged.text ∧ files' = files := by
  obtain ⟨ls, files, rfl, hmerges⟩ := resolveText_merges h
  refine ⟨files, fun s'' out files' => ⟨fun hsub => hsub.unique hmerges.substituted, ?_⟩⟩
  rintro ⟨rfl, rfl, rfl⟩
  exact hmerges.substituted

/-- Two directives on a line, one of them for an empty file, and a file that includes another. -/
theorem resolveText_substitutes_spliced :
    let shelf : Shelf :=
      { read := fun p =>
          if p = "/two" then .ok "1\n2" else if p = "/none" then .ok ""
          else if p = "/more" then .ok "#include \"/two\";\n" else .error ⟨"open", p, .absent⟩
        present := fun _ => false }
    let text : Bytes := "a#include \"/two\"b#include \"/none\"c\n#include\t\"/more\"d"
    ∃ files, ∀ s out files',
      Substituted shelf.host { cwd := "/" } (Path.dir (Path.absolute "/" "/r")) 1 () text s out files' ↔
        s = () ∧ out = utf8 "a1\n2bc\n1\n2;\nd" ∧ files' = files := by
  intro shelf text
  have htext : ((resolveText shelf.host { cwd := "/" } "/r" text).run.run ()).1.toOption.map Merged.text =
      some (utf8 "a1\n2bc\n1\n2;\nd") := by decide +kernel
  cases hrun : (resolveText shelf.host { cwd := "/" } "/r" text).run.run () with
  | mk r s =>
    rw [hrun] at htext
    cases r with
    | error e => cases htext
    | ok merged =>
      rw [← show merged.text = utf8 "a1\n2bc\n1\n2;\nd" from Option.some.inj htext]
      exact resolveText_substitutes shelf.host { cwd := "/" } "/r" text hrun

end ShaderForge
