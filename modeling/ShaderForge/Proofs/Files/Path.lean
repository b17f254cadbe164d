import ShaderForge.Files.Path

/-!
# ShaderForge.Proofs.Files.Path

Components of paths that are put together and cleaned.

* `Bytes.split_append_sep`, `Path.components_ofComponents` — cutting at slashes undoes joining.
* `Path.Plain`       — a name that stands for itself.
* `Path.components_join` — the components of a name joined to a path: the cleaned front, then the name.
* `Path.clean_clean`, `Path.absolute_absolute` — what is clean or absolute stays as it is.
-/

namespace ShaderForge

variable {c : Bytes} {cs : List Bytes}

namespace Bytes

variable {sep : UInt8}

theorem split_ne_nil (sep : UInt8) (s : Bytes) : split sep s ≠ [] := by
  induction s with
  | nil => simp [split]
  | cons b s ih =>
    rw [split]
    split
    · simp
    · split <;> simp

theorem length_split (sep : UInt8) (s : Bytes) : (split sep s).length = s.count sep + 1 := by
  induction s with
  | nil => rfl
  | cons b s ih =>
    rw [split, List.count_cons]
    split
    · rename_i hb
      simp [hb, ih]
    · rename_i hb
      cases hsplit : split sep s with
      | nil => exact absurd hsplit (split_ne_nil sep s)
      | cons piece pieces =>
        rw [hsplit] at ih
        simpa [hb] using ih

theorem split_append_sep (sep : UInt8) (s t : Bytes) :
    split sep (s ++ sep :: t) = split sep s ++ split sep t := by
  induction s with
  | nil => simp [split]
  | cons b s ih =>
    rw [List.cons_append, split, split, ih]
    split
    · rfl
    · cases h : split sep s with
      | nil => exact absurd h (split_ne_nil sep s)
      | cons piece pieces => rfl

theorem split_of_not_mem {s : Bytes} (h : sep ∉ s) : split sep s = [s] := by
  induction s with
  | nil => rfl
  | cons b s ih =>
    simp only [List.mem_cons, not_or] at h
    rw [split, if_neg (fun hb => h.1 hb.symm), ih h.2]

theorem not_mem_of_mem_split {s : Bytes} (h : c ∈ split sep s) : sep ∉ c := by
  induction s generalizing c with
  | nil =>
    rw [split, List.mem_singleton] at h
    simp [h]
  | cons b s ih =>
    rw [split] at h
    split at h
    · rcases List.mem_cons.1 h with rfl | h
      · simp
      · exact ih h
    · rename_i hb
      split at h
      · rename_i hnil
        exact absurd hnil (split_ne_nil sep s)
      · rename_i piece pieces hsplit
        rw [hsplit] at ih
        rcases List.mem_cons.1 h with rfl | h
        · have hpiece := ih (c := piece) (by simp)
          simp only [List.mem_cons, not_or]
          exact ⟨fun h => hb h.symm, hpiece⟩
        · exact ih (List.mem_cons_of_mem _ h)

theorem subset_of_mem_split {s : Bytes} (h : c ∈ split sep s) : c ⊆ s := by
  induction s generalizing c with
  | nil =>
    rw [split, List.mem_singleton] at h
    simp [h]
  | cons b s ih =>
    rw [split] at h
    split at h
    · rcases List.mem_cons.1 h with rfl | h
      · exact List.nil_subset _
      · exact List.subset_cons_of_subset b (ih h)
    · split at h
      · rename_i hnil
        exact absurd hnil (split_ne_nil sep s)
      · rename_i piece pieces hsplit
        rw [hsplit] at ih
        rcases List.mem_cons.1 h with rfl | h
        · exact List.cons_subset_cons b (ih List.mem_cons_self)
        · exact List.subset_cons_of_subset b (ih (List.mem_cons_of_mem _ h))

theorem split_join (hne : cs ≠ []) (h : ∀ c ∈ cs, sep ∉ c) :
    split sep (join [sep] cs) = cs := by
  induction cs with
  | nil => exact absurd rfl hne
  | cons c cs ih =>
    cases cs with
    | nil => exact split_of_not_mem (h c (by simp))
    | cons c' cs =>
      rw [join, List.append_assoc, List.singleton_append, split_append_sep,
        split_of_not_mem (h c (by simp)), ih (by simp) fun d hd => h d (List.mem_cons_of_mem _ hd)]
      rfl

end Bytes

namespace Path

variable {p : Path} {rooted : Bool}

open Bytes (slash)

/-- A name that stands for itself in a path. -/
structure Plain (c : Bytes) : Prop where
  ne_nil : c ≠ []
  ne_dot : c ≠ dot
  ne_dotDot : c ≠ dotDot
  no_slash : slash ∉ c

theorem components_of_not_mem (h : slash ∉ c) : components c = [c] :=
  Bytes.split_of_not_mem h

theorem components_append_slash (p q : Path) :
    components (p ++ slash :: q) = components p ++ components q :=
  Bytes.split_append_sep slash p q

theorem no_slash_of_mem_components (h : c ∈ components p) : slash ∉ c :=
  Bytes.not_mem_of_mem_split h

theorem components_ofComponents (rooted : Bool) (hne : cs ≠ []) (h : ∀ c ∈ cs, slash ∉ c) :
    components (ofComponents rooted cs) = (if rooted then [[]] else []) ++ cs := by
  have hjoin : components (Bytes.join [slash] cs) = cs := Bytes.split_join hne h
  cases rooted with
  | true =>
    have hroot := components_append_slash [] (Bytes.join [slash] cs)
    rw [hjoin] at hroot
    exact hroot
  | false => simpa [ofComponents, hne] using hjoin

/-- The components of the clean spelling of a path with the components `cs`. -/
def cleaned (rooted : Bool) (cs : List Bytes) : List Bytes := (cs.foldl (cleanStep rooted) []).reverse

theorem mem_foldl_cleanStep {above : List Bytes} (h : c ∈ cs.foldl (cleanStep rooted) above) : c ∈ cs ∨ c ∈ above := by
  induction cs generalizing above with
  | nil => exact .inr h
  | cons b cs ih =>
    rw [List.foldl_cons] at h
    rcases ih h with h | h
    · exact .inl (List.mem_cons_of_mem _ h)
    · unfold cleanStep at h
      split at h
      · exact .inr h
      split at h
      · rename_i hb
        split at h
        · split at h
          · cases h
          · rw [List.mem_singleton] at h
            exact .inl (by simp [h, hb])
        · split at h
          · rcases List.mem_cons.1 h with rfl | h
            · exact .inl (by simp [hb])
            · exact .inr h
          · exact .inr (List.mem_cons_of_mem _ h)
      · rcases List.mem_cons.1 h with rfl | h
        · exact .inl (by simp)
        · exact .inr h

theorem mem_of_mem_cleaned (h : c ∈ cleaned rooted cs) :
    c ∈ cs := by
  rw [cleaned, List.mem_reverse] at h
  exact (mem_foldl_cleanStep h).resolve_right (by simp)

theorem cleaned_append_plain (rooted : Bool) (cs : List Bytes) (h : Plain c) :
    cleaned rooted (cs ++ [c]) = cleaned rooted cs ++ [c] := by
  simp [cleaned, cleanStep, h.ne_nil, h.ne_dot, h.ne_dotDot]

theorem isAbsolute_append (h : p ≠ []) (q : Path) : isAbsolute (p ++ q) = isAbsolute p := by
  cases p with
  | nil => exact absurd rfl h
  | cons b p => rfl

theorem join_eq_clean (hp : p ≠ []) {name : Bytes} (hname : name ≠ []) :
    join p name = clean (p ++ slash :: name) := by
  simp [join, joinAll, hp, hname, Bytes.join]

theorem components_join {front : List Bytes} {base name : Bytes} (hp : p ≠ [])
    (hfront : components p = front ++ [base]) (hbase : Plain base) (hname : Plain name) :
    components (join p name) =
      (if isAbsolute p then [[]] else []) ++ (cleaned (isAbsolute p) front ++ [base, name]) := by
  have hcs : components (p ++ slash :: name) = front ++ [base] ++ [name] := by
    rw [components_append_slash, hfront, components_of_not_mem hname.no_slash]
  have hclean : cleanComponents (p ++ slash :: name) =
      cleaned (isAbsolute p) front ++ [base, name] := by
    change cleaned (isAbsolute (p ++ slash :: name)) (components (p ++ slash :: name)) = _
    rw [hcs, isAbsolute_append hp, cleaned_append_plain _ _ hname, cleaned_append_plain _ _ hbase,
      List.append_assoc]
    rfl
  rw [join_eq_clean hp hname.ne_nil, clean, hclean, isAbsolute_append hp,
    components_ofComponents _ (by simp)]
  intro c hc
  rcases List.mem_append.1 hc with hc | hc
  · apply no_slash_of_mem_components (p := p)
    rw [hfront]
    exact List.mem_append_left _ (mem_of_mem_cleaned hc)
  · simp only [List.mem_cons, List.not_mem_nil, or_false] at hc
    rcases hc with rfl | rfl
    · exact hbase.no_slash
    · exact hname.no_slash

theorem mem_components_clean (h : c ∈ components (clean p)) :
    c ∈ components p ∨ c = [] ∨ c = dot := by
  have hslash : ∀ c ∈ cleanComponents p, slash ∉ c :=
    fun c hc => no_slash_of_mem_components (mem_of_mem_cleaned hc)
  by_cases hnil : cleanComponents p = []
  · rw [clean, hnil] at h
    cases habs : isAbsolute p with
    | true =>
      rw [habs, show components (ofComponents true []) = [[], []] by decide] at h
      simp only [List.mem_cons, List.not_mem_nil, or_false, or_self] at h
      exact .inr (.inl h)
    | false =>
      rw [habs, show components (ofComponents false []) = [dot] by decide, List.mem_singleton] at h
      exact .inr (.inr h)
  · rw [clean, components_ofComponents _ hnil hslash] at h
    rcases List.mem_append.1 h with h | h
    · split at h
      · exact .inr (.inl (List.mem_singleton.1 h))
      · cases h
    · exact .inl (mem_of_mem_cleaned h)

theorem mem_components_dir (h : c ∈ components (dir p)) :
    c ∈ components p ∨ c = [] ∨ c = dot := by
  rcases mem_components_clean h with h | h
  · -- what is cut off is a part without slashes behind the last slash
    have hp : p = (p.reverse.dropWhile (· ≠ slash)).reverse ++ (p.reverse.takeWhile (· ≠ slash)).reverse := by
      rw [← List.reverse_append, List.takeWhile_append_dropWhile, List.reverse_reverse]
    cases hcut : p.reverse.dropWhile (· ≠ slash) with
    | nil =>
      rw [hcut] at h
      exact .inr (.inl (List.mem_singleton.1 h))
    | cons b front =>
      obtain rfl : b = slash := by
        have hhead := List.head?_dropWhile_not (fun b => decide (b ≠ slash)) p.reverse
        rw [hcut] at hhead
        simpa using hhead
      rw [hcut, List.reverse_cons] at h hp
      rw [hp, List.append_assoc, List.singleton_append, components_append_slash]
      rw [components_append_slash] at h
      rcases List.mem_append.1 h with h | h
      · exact .inl (List.mem_append_left _ h)
      · exact .inr (.inl (List.mem_singleton.1 h))
  · exact .inr h

theorem cleaned_keeps {P : Bytes → Prop} (hstep : ∀ above b, (∀ c ∈ above, P c) → ∀ c ∈ cleanStep rooted above b, P c) :
    ∀ c ∈ cleaned rooted cs, P c := by
  have hfold : ∀ (cs above : List Bytes), (∀ c ∈ above, P c) → ∀ c ∈ cs.foldl (cleanStep rooted) above, P c := by
    intro cs
    induction cs with
    | nil => exact fun above habove => habove
    | cons b cs ih => exact fun above habove => ih _ (hstep above b habove)
  intro c hc
  rw [cleaned, List.mem_reverse] at hc
  exact hfold cs [] (by simp) c hc

theorem ne_nil_of_mem_cleaned (h : c ∈ cleaned rooted cs) : c ≠ [] := by
  have hstep : ∀ (above : List Bytes) (b : Bytes), (∀ c ∈ above, c ≠ []) →
      ∀ c ∈ cleanStep rooted above b, c ≠ [] := by
    intro above b habove c hc
    unfold cleanStep at hc
    split at hc
    · exact habove c hc
    rename_i hb
    simp only [Bool.or_eq_true, decide_eq_true_eq, not_or] at hb
    split at hc
    · split at hc
      · split at hc
        · cases hc
        · rw [List.mem_singleton.1 hc]
          decide
      · split at hc
        · rcases List.mem_cons.1 hc with rfl | hc
          · decide
          · exact habove c hc
        · exact habove c (List.mem_cons_of_mem _ hc)
    · rcases List.mem_cons.1 hc with rfl | hc
      · exact hb.1
      · exact habove c hc
  exact cleaned_keeps hstep c h

theorem isAbsolute_clean (p : Path) : isAbsolute (clean p) = isAbsolute p := by
  rw [clean]
  cases habs : isAbsolute p with
  | true => rfl
  | false =>
    cases hcs : cleanComponents p with
    | nil => rfl
    | cons c cs =>
      have hmem : c ∈ cleaned (isAbsolute p) (components p) := by
        change c ∈ cleanComponents p
        rw [hcs]
        exact List.mem_cons_self
      have hslash := no_slash_of_mem_components (mem_of_mem_cleaned hmem)
      cases c with
      | nil => exact absurd rfl (ne_nil_of_mem_cleaned hmem)
      | cons b c =>
        have hb : b ≠ slash := fun h => hslash (by simp [h])
        have hhead : ∃ rest, Bytes.join [slash] ((b :: c) :: cs) = b :: rest := by
          cases cs with
          | nil => exact ⟨c, rfl⟩
          | cons c' cs => exact ⟨_, rfl⟩
        obtain ⟨rest, hrest⟩ := hhead
        simp [ofComponents, hrest, isAbsolute, hb]

theorem isAbsolute_join (hp : p ≠ []) {name : Bytes} (hname : name ≠ []) :
    isAbsolute (join p name) = isAbsolute p := by
  rw [join_eq_clean hp hname, isAbsolute_clean, isAbsolute_append hp]

/-! ## Clean paths -/

/-- Below the root no component of a clean path is passed over or leads up. -/
theorem named_of_mem_cleaned (h : c ∈ cleaned true cs) : c ≠ dot ∧ c ≠ dotDot := by
  have hstep : ∀ (above : List Bytes) (b : Bytes), (∀ c ∈ above, c ≠ dot ∧ c ≠ dotDot) →
      ∀ c ∈ cleanStep true above b, c ≠ dot ∧ c ≠ dotDot := by
    intro above b habove c hc
    unfold cleanStep at hc
    split at hc
    · exact habove c hc
    rename_i hb
    simp only [Bool.or_eq_true, decide_eq_true_eq, not_or] at hb
    split at hc
    · split at hc
      · cases hc
      · rename_i top below
        rw [if_neg (habove top List.mem_cons_self).2] at hc
        exact habove c (List.mem_cons_of_mem _ hc)
    · rename_i hup
      rcases List.mem_cons.1 hc with rfl | hc
      · exact ⟨hb.2, hup⟩
      · exact habove c hc
  exact cleaned_keeps hstep c h

theorem foldl_cleanStep_of_named (h : ∀ c ∈ cs, c ≠ [] ∧ c ≠ dot ∧ c ≠ dotDot) (above : List Bytes) :
    cs.foldl (cleanStep rooted) above = cs.reverse ++ above := by
  induction cs generalizing above with
  | nil => rfl
  | cons c cs ih =>
    obtain ⟨hnil, hdot, hup⟩ := h c List.mem_cons_self
    rw [List.foldl_cons, ih fun c hc => h c (List.mem_cons_of_mem _ hc)]
    simp [cleanStep, hnil, hdot, hup]

theorem clean_clean (h : isAbsolute p = true) : clean (clean p) = clean p := by
  have hnamed : ∀ c ∈ cleanComponents p, c ≠ [] ∧ c ≠ dot ∧ c ≠ dotDot := by
    intro c hc
    have hmem : c ∈ cleaned true (components p) := h ▸ hc
    exact ⟨ne_nil_of_mem_cleaned hmem, named_of_mem_cleaned hmem⟩
  have hslash : ∀ c ∈ cleanComponents p, slash ∉ c :=
    fun c hc => no_slash_of_mem_components (mem_of_mem_cleaned hc)
  suffices hcs : cleanComponents (clean p) = cleanComponents p by
    rw [clean, hcs, isAbsolute_clean, clean]
  rw [cleanComponents, isAbsolute_clean, clean, h]
  by_cases hnil : cleanComponents p = []
  · rw [hnil]
    decide
  · rw [components_ofComponents true hnil hslash, if_pos rfl, List.foldl_append,
      show [[]].foldl (cleanStep true) [] = [] from rfl, foldl_cleanStep_of_named hnamed]
    simp

/-- Seen from an absolute directory, an absolute path is absolute for good. -/
theorem absolute_absolute {cwd : Path} (hcwd : isAbsolute cwd = true) (p : Path) :
    absolute cwd (absolute cwd p) = absolute cwd p := by
  obtain ⟨q, hq, habs⟩ : ∃ q, absolute cwd p = clean q ∧ isAbsolute q = true := by
    unfold absolute
    split
    · rename_i hp
      exact ⟨p, rfl, hp⟩
    · have hne : cwd ≠ [] := by
        rintro rfl
        cases hcwd
      by_cases hp : p = []
      · exact ⟨cwd, by simp [join, joinAll, hp, hne, Bytes.join], hcwd⟩
      · exact ⟨_, join_eq_clean hne hp, by rw [isAbsolute_append hne, hcwd]⟩
  rw [hq, absolute, isAbsolute_clean, habs, if_pos rfl, clean_clean habs]

end Path
end ShaderForge
