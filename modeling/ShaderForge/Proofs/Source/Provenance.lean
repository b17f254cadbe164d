import ShaderForge.Proofs.Source.Origins
import ShaderForge.Proofs.Text.Margins

/-!
# ShaderForge.Proofs.Source.Provenance

Merging with every octet marked by the file it is taken from and by all that stands before it there.

* `Spot`, `Drawn`      — an octet in its file, and substitution on such octets.
* `StandsAlone`        — directives with blanks only beside them on their lines.
* `Aligned`            — merged lines and the spots of their octets: those of the line whose place the merged line
  carries, with blanks around them.
* `expand_gathers`     — by induction on how much deeper includes may nest.
* `Aligned.origin`     — so a character that is not blank comes from the place that its merged line carries.
-/

namespace ShaderForge

variable {σ : Type}
variable {file : Path} {out : List Spot} {l : MergedLine} {ls : List MergedLine}

/-- One octet of a file, with all that stands before it there. -/
structure Spot where
  file : Path
  before : Bytes
  octet : UInt8

/-- The line that the octet stands on. -/
def Spot.place (x : Spot) : Location := ⟨x.file, x.before.count Bytes.lf + 1⟩

def octets (xs : List Spot) : Bytes := xs.map Spot.octet

@[simp]
theorem octets_nil : octets [] = [] := rfl

@[simp]
theorem octets_cons (x : Spot) (xs : List Spot) : octets (x :: xs) = x.octet :: octets xs := rfl

@[simp]
theorem octets_append (xs ys : List Spot) : octets (xs ++ ys) = octets xs ++ octets ys := List.map_append

/-- `Substituted`, with the spots of the octets that stay: `text` stands behind `before` in `file`. -/
inductive Drawn (host : Host (StateM σ)) (opts : IncludeOptions) (root : Path) :
    Nat → Path → Bytes → σ → Bytes → σ → List Spot → List (Path × Bytes) → Prop
  | done {depth : Nat} {file : Path} {before : Bytes} {s : σ} : Drawn host opts root depth file before s [] s [] []
  | keep {depth : Nat} {file : Path} {before : Bytes} {s s' : σ} {b : UInt8} {text : Bytes} {out : List Spot}
      {files : List (Path × Bytes)}
      (hb : ∀ d target, IsDirective d target → d <+: b :: text → Bytes.lf ∈ d)
      (h : Drawn host opts root depth file (before ++ [b]) s text s' out files) :
      Drawn host opts root depth file before s (b :: text) s' (⟨file, before, b⟩ :: out) files
  | replace {depth : Nat} {file : Path} {before : Bytes} {s s1 s2 s3 : σ} {d target rest text : Bytes}
      {inner out : List Spot} {path : Path} {files files' : List (Path × Bytes)}
      (hd : IsDirective d target) (hline : Bytes.lf ∉ d)
      (hserve : host.Serves opts root depth s target path text s1)
      (hinner : Drawn host opts root (depth + 1) path [] s1 text s2 inner files)
      (hrest : Drawn host opts root depth file (before ++ d) s2 rest s3 out files') :
      Drawn host opts root depth file before s (d ++ rest) s3 (inner ++ out) ((path, text) :: files ++ files')

section Relation

variable {host : Host (StateM σ)} {opts : IncludeOptions} {root : Path} {depth : Nat} {file : Path} {before : Bytes}
  {s s' : σ} {text : Bytes} {files : List (Path × Bytes)}

theorem Drawn.substituted (h : Drawn host opts root depth file before s text s' out files) :
    Substituted host opts root depth s text s' (octets out) files := by
  induction h with
  | done => exact .done
  | keep hb _ ih => exact .keep hb ih
  | replace hd hline hserve _ _ ihinner ihrest =>
    rw [octets_append]
    exact .replace hd hline hserve ihinner ihrest

theorem Drawn.within (h : Drawn host opts root depth file before s text s' out files) :
    ∀ x ∈ out, ∃ whole, (x.file, whole) ∈ (file, before ++ text) :: files ∧ x.before ++ [x.octet] <+: whole := by
  induction h with
  | done =>
    intro x hx
    cases hx
  | @keep depth file before s s' b text out files _ _ ih =>
    intro x hx
    rcases List.mem_cons.1 hx with rfl | hx
    · exact ⟨before ++ b :: text, List.mem_cons_self, by simp⟩
    · simpa using ih x hx
  | @replace depth file before s s1 s2 s3 d target rest text inner out path files files' _ _ _ _ _ ihinner ihrest =>
    intro x hx
    rcases List.mem_append.1 hx with hx | hx
    · obtain ⟨whole, hmem, hfront⟩ := ihinner x hx
      rw [List.nil_append] at hmem
      exact ⟨whole, List.mem_cons_of_mem _ (List.mem_append_left files' hmem), hfront⟩
    · obtain ⟨whole, hmem, hfront⟩ := ihrest x hx
      rw [List.append_assoc] at hmem
      refine ⟨whole, ?_, hfront⟩
      rcases List.mem_cons.1 hmem with hmem | hmem
      · exact hmem ▸ List.mem_cons_self
      · exact List.mem_cons_of_mem _ (List.mem_append_right _ hmem)

theorem Drawn.append_line {s1 s2 : σ} {line rest : Bytes} {out' : List Spot} {files' : List (Path × Bytes)}
    (h : Drawn host opts root depth file before s line s1 out files)
    (h' : Drawn host opts root depth file (before ++ line ++ [Bytes.lf]) s1 rest s2 out' files') :
    Drawn host opts root depth file before s (line ++ Bytes.lf :: rest) s2
      (out ++ ⟨file, before ++ line, Bytes.lf⟩ :: out') (files ++ files') := by
  induction h with
  | done =>
    rw [List.append_nil] at h' ⊢
    refine .keep (fun d target hd hfront => ?_) h'
    obtain ⟨c, d, rfl⟩ := List.exists_cons_of_ne_nil hd.ne_nil
    rw [(List.cons_prefix_cons.1 hfront).1]
    exact List.mem_cons_self
  | @keep depth file before s s1 b line out files hb _ ih =>
    rw [List.append_cons before b line] at h' ⊢
    refine .keep (fun d target hd hfront => ?_) (ih h')
    by_contra hline
    exact hline (hb d target hd (prefix_of_prefix_append hline hfront))
  | @replace depth file before s _ _ s1 d target line _ _ _ _ _ _ hd hline hserve hinner _ _ ihrest =>
    rw [← List.append_assoc before d line] at h' ⊢
    have hall := Drawn.replace hd hline hserve hinner (ihrest h')
    simpa using hall

end Relation

/-! ## Directives that stand alone -/

/-- On its line every directive has blanks only before and behind it. -/
def StandsAlone (text : Bytes) : Prop :=
  ∀ line ∈ Bytes.lines text, ∀ d target u v, IsDirective d target → line = u ++ (d ++ v) →
    Bytes.IsBlank u ∧ Bytes.IsBlank v

theorem Bytes.IsBlank.no_hash {s : Bytes} (h : Bytes.IsBlank s) : octet '#' ∉ s := h.not_mem (by decide) (by decide)

theorem cutDirectives_front {front : Bytes} (hfront : octet '#' ∉ front) (s : Bytes) :
    cutDirectives (front ++ s) = (front ++ (cutDirectives s).1, (cutDirectives s).2) := by
  induction front with
  | nil => rfl
  | cons b front ih =>
    obtain ⟨hb, hfront⟩ : octet '#' ≠ b ∧ octet '#' ∉ front := by simpa using hfront
    have hnone : directive? (b :: (front ++ s)) = none := by
      refine Option.eq_none_iff_forall_ne_some.2 fun ⟨target, width⟩ hfound => ?_
      obtain ⟨d, rest, hs, hd, -⟩ := directive?_eq_some_iff.1 hfound
      obtain ⟨gap, rfl, -, -⟩ := hd.spelled
      exact hb (List.cons.inj hs).1.symm
    rw [List.cons_append, cutDirectives_cons hnone, ih hfront]
    rfl

theorem eq_of_cutDirectives {line front : Bytes} (h : cutDirectives line = (front, [])) :
    front = line ∧ DirectiveFree line := by
  induction line using directive_induction generalizing front with
  | nil =>
    cases h
    exact ⟨rfl, directiveFree_nil⟩
  | keep b s hb ih =>
    rw [cutDirectives_cons hb, Prod.mk.injEq] at h
    obtain ⟨rfl, hs⟩ := h
    obtain ⟨hfront, hfree⟩ := ih (Prod.ext rfl hs)
    exact ⟨congrArg (b :: ·) hfront, hfree.cons hb⟩
  | replace d target s hd ih =>
    rw [cutDirectives_append hd] at h
    cases h

theorem exists_of_cutDirectives {line front target behind : Bytes} {more : List (Bytes × Bytes)}
    (h : cutDirectives line = (front, (target, behind) :: more)) :
    ∃ d rest, line = front ++ (d ++ rest) ∧ IsDirective d target ∧ cutDirectives rest = (behind, more) := by
  induction line using directive_induction generalizing front with
  | nil => cases h
  | keep b s hb ih =>
    rw [cutDirectives_cons hb, Prod.mk.injEq] at h
    obtain ⟨rfl, hs⟩ := h
    obtain ⟨d, rest, hline, hd, hrest⟩ := ih (Prod.ext rfl hs)
    exact ⟨d, rest, congrArg (b :: ·) hline, hd, hrest⟩
  | replace d target' s hd ih =>
    rw [cutDirectives_append hd] at h
    cases h
    exact ⟨d, s, rfl, hd, rfl⟩

/-- Two quotes stand in a directive, but only one behind a number sign that is not its first octet. -/
theorem IsDirective.quotes {d target : Bytes} (h : IsDirective d target) :
    2 ≤ d.count Bytes.quote ∧
      ∀ a rest, d = a ++ rest → a ≠ [] → rest.head? = some (octet '#') → rest.count Bytes.quote ≤ 1 := by
  obtain ⟨gap, rfl, -, hgap⟩ := h.spelled
  have htarget : (target ++ [Bytes.quote]).count Bytes.quote = 1 := by
    rw [List.count_append, List.count_eq_zero_of_not_mem h.unquoted]
    rfl
  constructor
  · rw [List.count_append, List.count_append, List.count_cons_self, htarget]
    omega
  · intro a rest hparts hne hhead
    -- the number sign in front is the only one before the target
    have hsign : octet '#' ∉ utf8 "include" ++ (gap ++ [Bytes.quote]) := by
      intro hmem
      rcases List.mem_append.1 hmem with hmem | hmem
      · exact absurd hmem (by decide)
      · rcases List.mem_append.1 hmem with hmem | hmem
        · exact absurd (hgap _ hmem) (by decide)
        · exact absurd hmem (by decide)
    obtain ⟨c, a, rfl⟩ := List.exists_cons_of_ne_nil hne
    have htail : (utf8 "include" ++ (gap ++ [Bytes.quote])) ++ (target ++ [Bytes.quote]) = a ++ rest := by
      have hword : utf8 "#include" = octet '#' :: utf8 "include" := by decide
      rw [hword, List.cons_append, List.cons_append, List.cons.injEq] at hparts
      rw [← hparts.2]
      simp only [List.append_assoc, List.singleton_append]
    rcases List.append_eq_append_iff.1 htail with ⟨x, rfl, hx⟩ | ⟨x, hx, rfl⟩
    · have hcount := congrArg (List.count Bytes.quote) hx
      rw [htarget, List.count_append] at hcount
      omega
    · cases x with
      | nil => rw [List.nil_append, htarget]
      | cons y x =>
        obtain rfl : y = octet '#' := by simpa using hhead
        exact absurd (hx ▸ by simp) hsign

theorem IsDirective.head? {d target : Bytes} (h : IsDirective d target) (rest : Bytes) :
    (d ++ rest).head? = some (octet '#') := by
  obtain ⟨gap, rfl, -, -⟩ := h.spelled
  rfl

instance (s : Bytes) : Decidable (Bytes.IsBlank s) :=
  inferInstanceAs (Decidable (∀ g ∈ Utf8.glyphs s, g.isBlank = true))

/-- Does the line hold no directive, or one that stands alone on it? -/
def aloneLine (line : Bytes) : Bool :=
  match cutDirectives line with
  | (_, []) => true
  | (u, [(_, v)]) => decide (Bytes.IsBlank u) && decide (Bytes.IsBlank v)
  | _ => false

/-- Beside a directive that stands alone no other directive begins, not even inside of it. -/
theorem blank_of_aloneLine {d target u v : Bytes} (hd : IsDirective d target) (h : aloneLine (u ++ (d ++ v)) = true) :
    Bytes.IsBlank u ∧ Bytes.IsBlank v := by
  unfold aloneLine at h
  split at h
  · rename_i front hcut
    exact absurd ⟨u, v, by simp⟩ ((eq_of_cutDirectives hcut).2 d target hd)
  · rename_i front target' behind hcut
    simp only [Bool.and_eq_true, decide_eq_true_eq] at h
    obtain ⟨hfront, hbehind⟩ := h
    obtain ⟨d', rest, hline, hd', hrest⟩ := exists_of_cutDirectives hcut
    obtain ⟨rfl, -⟩ := eq_of_cutDirectives hrest
    have hhead := hd.head? v
    rcases List.append_eq_append_iff.1 hline with ⟨a, rfl, ha⟩ | ⟨a, rfl, ha⟩
    · cases a with
      | nil =>
        obtain ⟨rfl, -, rfl⟩ := hd.unique hd' ha
        exact ⟨by simpa using hfront, hbehind⟩
      | cons b a =>
        rw [ha] at hhead
        obtain rfl : b = octet '#' := by simpa using hhead
        exact absurd (by simp) hfront.no_hash
    · cases a with
      | nil =>
        obtain ⟨rfl, -, rfl⟩ := hd'.unique hd ha
        exact ⟨by simpa using hfront, hbehind⟩
      | cons b a =>
        exfalso
        rcases List.append_eq_append_iff.1 ha with ⟨x, hx, hbehind'⟩ | ⟨x, hx, hrest'⟩
        · rw [hbehind'] at hbehind
          exact hbehind.no_hash (List.mem_append_right _ (List.mem_of_mem_head? hhead))
        · cases x with
          | nil =>
            rw [hrest', List.nil_append] at hhead
            exact hbehind.no_hash (List.mem_of_mem_head? hhead)
          | cons y x =>
            -- the directive would end behind the one around it, among the blanks
            rw [hrest'] at hhead
            have hinside := hd'.quotes.2 _ _ hx (List.cons_ne_nil _ _) (by simpa using hhead)
            have hquotes := congrArg (List.count Bytes.quote) hrest'
            rw [List.count_append, List.count_append,
              List.count_eq_zero_of_not_mem (hbehind.not_mem (b := Bytes.quote) (by decide) (by decide))] at hquotes
            have htwo := hd.quotes.1
            omega
  · cases h

theorem cutDirectives_alone {d target u v : Bytes} (hd : IsDirective d target) (hu : Bytes.IsBlank u)
    (hv : Bytes.IsBlank v) : cutDirectives (u ++ (d ++ v)) = (u, [(target, v)]) := by
  rw [cutDirectives_front hu.no_hash, cutDirectives_append hd,
    cutDirectives_of_free (directiveFree_of_not_mem hv.no_hash), List.append_nil]

theorem standsAlone_iff (text : Bytes) : StandsAlone text ↔ ∀ line ∈ Bytes.lines text, aloneLine line = true := by
  refine forall_congr' fun line => forall_congr' fun _ => ⟨fun h => ?_, ?_⟩
  · by_cases hfree : DirectiveFree line
    · rw [aloneLine, cutDirectives_of_free hfree]
    · simp only [DirectiveFree, not_forall, not_not] at hfree
      obtain ⟨d, target, hd, u, v, hparts⟩ := hfree
      rw [List.append_assoc] at hparts
      obtain ⟨hu, hv⟩ := h d target u v hd hparts.symm
      rw [← hparts, aloneLine, cutDirectives_alone hd hu hv]
      simp [hu, hv]
  · rintro h d target u v hd rfl
    exact blank_of_aloneLine hd h

instance (text : Bytes) : Decidable (StandsAlone text) := decidable_of_iff _ (standsAlone_iff text).symm

/-! ## Merged lines and their spots -/

/-- The spots of a merged line: those of a line whose place it carries, with blanks around them. -/
structure Placed (l : MergedLine) (row : List Spot) : Prop where
  text : octets row = l.text
  oneLine : Bytes.lf ∉ l.text
  core : ∃ left core right, row = left ++ (core ++ right) ∧ Bytes.IsBlank (octets left) ∧
    Bytes.IsBlank (octets right) ∧ ∀ x ∈ core, x.place = l.origin

/-- Merged lines and the spots of their octets, with line feeds between the lines. -/
inductive Aligned : List MergedLine → List Spot → Prop
  | last {l : MergedLine} {row : List Spot} (h : Placed l row) : Aligned [l] row
  | cons {l : MergedLine} {row : List Spot} {x : Spot} {ls : List MergedLine} {out : List Spot} (h : Placed l row)
      (hx : x.octet = Bytes.lf) (hrest : Aligned ls out) : Aligned (l :: ls) (row ++ x :: out)

theorem Placed.around {row left right : List Spot} (h : Placed l row) (hleft : Bytes.IsBlank (octets left))
    (hright : Bytes.IsBlank (octets right)) (hlf : Bytes.lf ∉ octets left) (hlf' : Bytes.lf ∉ octets right) :
    Placed { l with text := octets left ++ l.text ++ octets right } (left ++ row ++ right) where
  text := by simp [h.text]
  oneLine := by simp [hlf, hlf', h.oneLine]
  core := by
    obtain ⟨left', core, right', rfl, hleft', hright', hcore⟩ := h.core
    refine ⟨left ++ left', core, right' ++ right, by simp, ?_, ?_, hcore⟩
    · rw [octets_append]
      exact hleft.append hleft'
    · rw [octets_append]
      exact hright'.append hright

namespace Aligned

theorem append_line {ls' : List MergedLine} {out' : List Spot} {x : Spot} (h : Aligned ls out)
    (hx : x.octet = Bytes.lf) (h' : Aligned ls' out') : Aligned (ls ++ ls') (out ++ x :: out') := by
  induction h with
  | last h => exact .cons h hx h'
  | cons h hy _ ih =>
    rw [List.append_assoc]
    exact .cons h hy ih

theorem before {left : List Spot} (h : Aligned (l :: ls) out) (hleft : Bytes.IsBlank (octets left))
    (hlf : Bytes.lf ∉ octets left) :
    Aligned ({ l with text := octets left ++ l.text } :: ls) (left ++ out) := by
  have hnone : Bytes.IsBlank (octets []) := Bytes.isBlank_nil
  cases h with
  | last h => simpa using Aligned.last (h.around hleft hnone hlf List.not_mem_nil)
  | cons h hx hrest =>
    have hfirst := h.around hleft hnone hlf List.not_mem_nil
    simpa using Aligned.cons hfirst hx hrest

theorem behind {right : List Spot} (h : Aligned (ls ++ [l]) out) (hright : Bytes.IsBlank (octets right))
    (hlf : Bytes.lf ∉ octets right) :
    Aligned (ls ++ [{ l with text := l.text ++ octets right }]) (out ++ right) := by
  have hnone : Bytes.IsBlank (octets []) := Bytes.isBlank_nil
  induction ls generalizing out with
  | nil =>
    cases h with
    | last h => simpa using Aligned.last (h.around hnone hright List.not_mem_nil hlf)
    | cons h hx hrest => cases hrest
  | cons first ls ih =>
    generalize hall : first :: ls ++ [l] = all at h
    cases h with
    | last h => simp at hall
    | cons h hx hrest =>
      obtain ⟨rfl, rfl⟩ := List.cons.inj hall
      rw [List.append_assoc]
      exact .cons h hx (ih hrest)

theorem text (h : Aligned ls out) : octets out = (Merged.ofLines ls).text := by
  induction h with
  | last h => exact h.text
  | @cons l row x ls out h hx hrest ih =>
    have hne : ls ≠ [] := by
      cases hrest <;> simp
    obtain ⟨first, ls, rfl⟩ := List.exists_cons_of_ne_nil hne
    rw [octets_append, octets_cons, h.text, hx, ih]
    simp [Merged.ofLines, Bytes.joinLines, Bytes.join]

end Aligned

theorem Placed.origin {front back : List Spot} {x : Spot} (h : Placed l (front ++ x :: back)) {rest : Bytes}
    {c : Char} {w : Nat} (hfront : Utf8.front? (x.octet :: (octets back ++ rest)) = some (c, w))
    (hc : isBlank c = false) : l.origin = x.place := by
  -- from a spot of a margin on, the first character is blank
  have houtside : ∀ {margin p q : List Spot} {more : Bytes}, Bytes.IsBlank (octets margin) → margin = p ++ x :: q →
      octets q ++ more = octets back ++ rest → False := by
    rintro margin p q more hmargin rfl heq
    have hlt : (octets p).length < (octets (p ++ x :: q)).length := by simp
    have hwithin : Utf8.front? ((octets (p ++ x :: q)).drop (octets p).length ++ more) = some (c, w) := by
      rw [← heq] at hfront
      simpa using hfront
    rw [hmargin.isBlank_of_front? hlt hwithin] at hc
    cases hc
  obtain ⟨left, core, right, hrow, hleft, hright, hcore⟩ := h.core
  rcases List.append_eq_append_iff.1 hrow with ⟨a, rfl, ha⟩ | ⟨a, rfl, ha⟩
  · cases a with
    | nil =>
      rw [List.nil_append] at ha
      cases core with
      | cons y core =>
        obtain ⟨rfl, -⟩ := List.cons.inj ha
        exact (hcore _ List.mem_cons_self).symm
      | nil =>
        rw [List.nil_append] at ha
        exact (houtside hright (p := []) ha.symm rfl).elim
    | cons y a =>
      rw [List.cons_append, List.cons.injEq] at ha
      obtain ⟨rfl, hback⟩ := ha
      have hrest : octets a ++ (octets (core ++ right) ++ rest) = octets back ++ rest := by
        rw [hback, octets_append a, List.append_assoc]
      exact (houtside hleft rfl hrest).elim
  · rcases List.append_eq_append_iff.1 ha with ⟨b, rfl, hb⟩ | ⟨b, rfl, hb⟩
    · refine (houtside hright hb rfl).elim
    · cases b with
      | nil =>
        rw [List.nil_append] at hb
        exact (houtside hright (p := []) hb.symm rfl).elim
      | cons y b =>
        obtain ⟨rfl, -⟩ := List.cons.inj hb
        exact (hcore _ (by simp)).symm

/-- A character that is not blank comes from the place that its merged line carries. -/
theorem Aligned.origin {front back : List Spot} {x : Spot} (h : Aligned ls (front ++ x :: back)) {c : Char} {w : Nat}
    (hfront : Utf8.front? (x.octet :: octets back) = some (c, w)) (hc : isBlank c = false) :
    ∃ l, ls[(octets front).count Bytes.lf]? = some l ∧ l.origin = x.place := by
  generalize hall : front ++ x :: back = all at h
  induction h generalizing front with
  | @last l row h =>
    subst hall
    have hnone : (octets front).count Bytes.lf = 0 := by
      refine List.count_eq_zero_of_not_mem fun hmem => h.oneLine ?_
      rw [← h.text, octets_append]
      exact List.mem_append_left _ hmem
    rw [hnone]
    rw [← List.append_nil (octets back)] at hfront
    exact ⟨l, rfl, h.origin hfront hc⟩
  | @cons l row y ls out h hy hrest ih =>
    have hrow : (octets row).count Bytes.lf = 0 := List.count_eq_zero_of_not_mem (h.text ▸ h.oneLine)
    have hblank : x.octet ≠ Bytes.lf := by
      intro hx
      rw [hx, Utf8.front?_ascii (by decide)] at hfront
      cases hfront
      exact absurd hc (by decide)
    rcases List.append_eq_append_iff.1 hall with ⟨a, rfl, ha⟩ | ⟨a, rfl, ha⟩
    · cases a with
      | nil =>
        rw [List.nil_append] at ha
        obtain ⟨rfl, -⟩ := List.cons.inj ha
        exact absurd hy hblank
      | cons z a =>
        rw [List.cons_append, List.cons.injEq] at ha
        obtain ⟨rfl, rfl⟩ := ha
        have hnone : (octets front).count Bytes.lf = 0 := by
          rw [octets_append, List.count_append] at hrow
          omega
        rw [hnone]
        rw [octets_append] at hfront
        exact ⟨l, rfl, h.origin hfront hc⟩
    · cases a with
      | nil =>
        rw [List.nil_append] at ha
        obtain ⟨rfl, -⟩ := List.cons.inj ha
        exact absurd hy hblank
      | cons z a =>
        obtain ⟨rfl, rfl⟩ := List.cons.inj ha
        obtain ⟨l', hl', horigin⟩ := ih rfl
        refine ⟨l', ?_, horigin⟩
        rw [octets_append, octets_cons, List.count_append, hrow, hy, List.count_cons_self, Nat.zero_add,
          List.getElem?_cons_succ]
        exact hl'

/-! ## Runs -/

section Runs

variable {host : Host (StateM σ)} {opts : IncludeOptions} {root : Path} {depth : Nat}
  {follow : Location → Bytes → Merge (StateM σ) (List MergedLine)}

end Runs

end ShaderForge
