import ShaderForge.Proofs.Files.LinkFree

/-!
# ShaderForge.Proofs.Files.Spelling

Two spellings of one directory, and what their clean forms lead to when names are joined to them.

* `Disk.walk_budget`       — a walk that did not run out of links ends the same with more of them.
* `Disk.Leads.walk_append` — a walk from a directory goes on from the place of the directory.
* `Disk.find_nofollow`     — a path to a directory is a link, or leads there without its last link being passed.
* `Disk.find_join_eq`      — a path below the directory leads to the same node in both spellings.
-/

namespace ShaderForge

open Bytes (slash)

namespace Disk

variable {d : Disk} {place : Place} {rest : List Bytes} {c : Bytes}

/-! ## Walks -/

section Steps

variable {follow : Bool} {links : Nat} (hdir : d.node? place = some .directory)

include hdir

theorem walk_stay (hc : c = [] ∨ c = Path.dot) :
    d.walk follow links place (c :: rest) = d.walk follow links place rest := by
  rw [walk, hdir]
  simp only [if_pos (show (c = [] || c = Path.dot) = true by simpa using hc)]

theorem walk_up : d.walk follow links place (Path.dotDot :: rest) = d.walk follow links place.dropLast rest := by
  rw [walk, hdir]
  rfl

theorem walk_down (hc : Names c) {n : Node} (hn : d.node? (place ++ [c]) = some n) (hlink : ∀ target, n ≠ .link target) :
    d.walk follow links place (c :: rest) = d.walk follow links (place ++ [c]) rest := by
  have hlong : ¬ maxName < c.length := Nat.not_lt.2 hc.short
  rw [walk, hdir]
  simp only [hc.ne_nil, hc.ne_dot, hc.ne_dotDot, hlong, hn, decide_false, Bool.or_self, if_false, Bool.false_eq_true]

theorem walk_jump (hc : Names c) {target : Path} (hn : d.node? (place ++ [c]) = some (.link target))
    (hpass : rest ≠ [] ∨ follow = true) : d.walk follow (links + 1) place (c :: rest) =
      d.walk follow links (if Path.isAbsolute target then [] else place) (Path.components target ++ rest) := by
  have hlong : ¬ maxName < c.length := Nat.not_lt.2 hc.short
  have hlast : (rest.isEmpty && !follow) = false := by
    rcases hpass with hne | hfollow
    · simp [hne]
    · simp [hfollow]
  rw [walk, hdir]
  simp only [hc.ne_nil, hc.ne_dot, hc.ne_dotDot, hlong, hn, hlast, decide_false, Bool.or_self, if_false,
    Bool.false_eq_true]

end Steps

/-- With more links to pass, a walk ends as before, unless it had run out of them. -/
theorem walk_budget {follow : Bool} {links more : Nat} (hle : links ≤ more)
    (h : d.walk follow links place rest ≠ .error .tooManyLinks) :
    d.walk follow more place rest = d.walk follow links place rest := by
  fun_induction walk d follow links place rest generalizing more with
  | case1 links place n hn => rw [walk, hn]
  | case2 links place hn => rw [walk, hn]
  | case3 links place c rest hn => rw [walk, hn]
  | case4 links place c rest hdir hc ih => rw [walk_stay hdir (by simpa using hc), ih hle h]
  | case5 links place rest hdir hc ih => rw [walk_up hdir, ih hle h]
  | case6 links place c rest hdir hc hup hlong =>
    rw [walk, hdir]
    simp only [hc, hup, hlong, if_false, if_true, Bool.false_eq_true]
  | case7 links place c rest hdir hc hup hlong hn hrest =>
    rw [walk, hdir]
    simp only [hc, hup, hlong, hn, if_false, Bool.false_eq_true]
    rw [if_pos hrest]
  | case8 links place c rest hdir hc hup hlong hn hrest =>
    rw [walk, hdir]
    simp only [hc, hup, hlong, hn, if_false, Bool.false_eq_true]
    rw [if_neg hrest]
  | case9 links place c rest hdir hc hup hlong target hn hlast =>
    rw [walk, hdir]
    simp only [hc, hup, hlong, hn, hlast, if_false, if_true, Bool.false_eq_true]
  | case10 => exact absurd rfl h
  | case11 place c rest hdir hc hup hlong target hn hlast links ih =>
    obtain ⟨more, rfl⟩ : ∃ k, more = k + 1 := ⟨more - 1, by omega⟩
    rw [walk, hdir]
    simp only [hc, hup, hlong, hn, hlast, if_false, Bool.false_eq_true]
    exact ih (by omega) h
  | case12 links place c rest hdir hc hup hlong n hn hlink ih =>
    simp only [Bool.or_eq_true, decide_eq_true_eq, not_or] at hc
    rw [walk_down hdir ⟨hc.1, hc.2, hup, Nat.not_lt.1 hlong⟩ hlink hn, ih hle h]
  | case13 links place c rest n hleaf hn =>
    rw [walk, hn]
    cases n with
    | directory => exact absurd rfl hleaf
    | file | link => rfl

theorem Leads.walk_append {links : Nat} {more : List Bytes} {q : Place}
    (h : d.Leads true links place rest (.node q .directory)) (hmore : more ≠ []) (follow : Bool) :
    ∃ left, d.walk follow links place (rest ++ more) = d.walk follow left q more := by
  generalize hf : Found.node q .directory = f at h
  induction h with
  | here =>
    cases hf
    exact ⟨_, rfl⟩
  | stay hdir hc _ ih =>
    obtain ⟨left, hleft⟩ := ih hf
    exact ⟨left, by rw [List.cons_append, walk_stay hdir hc, hleft]⟩
  | up hdir _ ih =>
    obtain ⟨left, hleft⟩ := ih hf
    exact ⟨left, by rw [List.cons_append, walk_up hdir, hleft]⟩
  | down hdir hc hn hlink _ ih =>
    obtain ⟨left, hleft⟩ := ih hf
    exact ⟨left, by rw [List.cons_append, walk_down hdir hc hn hlink, hleft]⟩
  | @jump links place c rest f target hdir hc hn _ _ ih =>
    obtain ⟨left, hleft⟩ := ih hf
    refine ⟨left, ?_⟩
    rw [List.cons_append, walk_jump hdir hc hn (.inl (by simp [hmore])), ← hleft, List.append_assoc]
  | link _ _ _ hfollow => cases hfollow
  | vacant => cases hf

/-- Without passing a link in last position, a path to a directory leads to the same directory or to a link. -/
theorem Leads.nofollow {links : Nat} {q : Place} (h : d.Leads true links place rest (.node q .directory)) :
    d.Leads false links place rest (.node q .directory) ∨
      ∃ p target, d.Leads false links place rest (.node p (.link target)) := by
  generalize hf : Found.node q .directory = f at h
  induction h with
  | here hn => exact .inl (.here hn)
  | stay hdir hc _ ih =>
    exact (ih hf).imp (.stay hdir hc) fun ⟨p, target, hp⟩ => ⟨p, target, .stay hdir hc hp⟩
  | up hdir _ ih => exact (ih hf).imp (.up hdir) fun ⟨p, target, hp⟩ => ⟨p, target, .up hdir hp⟩
  | down hdir hc hn hlink _ ih =>
    exact (ih hf).imp (.down hdir hc hn hlink) fun ⟨p, target, hp⟩ => ⟨p, target, .down hdir hc hn hlink hp⟩
  | @jump links place c rest f target hdir hc hn _ _ ih =>
    by_cases hrest : rest = []
    · subst hrest
      exact .inr ⟨_, _, .link hdir hc hn rfl⟩
    · exact (ih hf).imp (.jump hdir hc hn (.inl hrest)) fun ⟨p, t, hp⟩ => ⟨p, t, .jump hdir hc hn (.inl hrest) hp⟩
  | link _ _ _ hfollow => cases hfollow
  | vacant => cases hf

theorem find_nofollow {p : Path} {q : Place} (h : d.find true p = .ok (.node q .directory)) :
    d.find false p = .ok (.node q .directory) ∨ ∃ q' target, d.find false p = .ok (.node q' (.link target)) := by
  obtain ⟨hp, hleads⟩ := find_eq_ok_iff.1 h
  exact hleads.nofollow.imp (fun h => find_eq_ok_iff.2 ⟨hp, h⟩)
    fun ⟨q', target, h⟩ => ⟨q', target, find_eq_ok_iff.2 ⟨hp, h⟩⟩

/-! ## Joined names -/

variable {p q : Path}

theorem plain_of_mem_moving (hup : Path.dotDot ∉ Path.components q) (hc : c ∈ moving (Path.components q)) :
    Path.Plain c := by
  rw [moving, List.mem_filter] at hc
  obtain ⟨hmem, hnamed⟩ := hc
  simp only [Bool.and_eq_true, decide_eq_true_eq, ne_eq] at hnamed
  exact ⟨hnamed.1, hnamed.2, fun heq => hup (heq ▸ hmem), Path.no_slash_of_mem_components hmem⟩

theorem join_of_not_mem (hp : p ≠ []) (hq : q ≠ []) (hup : Path.dotDot ∉ Path.components q) :
    Path.join p q = Path.join p (Path.ofComponents false (moving (Path.components q))) := by
  rw [Path.join_ofComponents p fun c hc => plain_of_mem_moving hup hc, Path.join_eq_clean hp hq, Path.clean,
    Path.isAbsolute_append hp]
  congr 1
  have hclean : Path.cleanComponents (p ++ slash :: q) =
      Path.cleaned (Path.isAbsolute p) (Path.components p ++ Path.components q) := by
    rw [Path.cleanComponents, Path.isAbsolute_append hp, Path.components_append_slash]
    rfl
  rw [hclean]
  exact cleaned_append_of_not_mem _ _ hup

theorem mem_ofComponents {rooted : Bool} {cs : List Bytes} (hne : cs ≠ []) (hslash : ∀ c ∈ cs, slash ∉ c) {b : UInt8}
    (hb : b ≠ slash) : b ∈ Path.ofComponents rooted cs ↔ ∃ c ∈ cs, b ∈ c := by
  constructor
  · intro hmem
    have hjoin : b ∈ Bytes.join [slash] cs := by
      cases rooted <;> simpa [Path.ofComponents, hne, hb] using hmem
    exact (Bytes.mem_join hjoin).resolve_left hb
  · rintro ⟨c, hc, hmem⟩
    have hcomponent : c ∈ Path.components (Path.ofComponents rooted cs) := by
      rw [Path.components_ofComponents rooted hne hslash]
      exact List.mem_append_right _ hc
    exact Bytes.subset_of_mem_split hcomponent hmem

/-- Names joined to the path of a directory are followed from its place, if they can be written in a path. -/
theorem find_join_cases (hclean : d.find true (Path.clean p) = .ok (.node place .directory)) {bs : List Bytes}
    (hbs : ∀ b ∈ bs, Path.Plain b) (hne : bs ≠ [])
    (hroom : (Path.join p (Path.ofComponents false bs)).length < maxPath) :
    (∃ b ∈ bs, 0 ∈ b) ∧ d.find true (Path.join p (Path.ofComponents false bs)) = .error .invalidArgument ∨
      (¬ ∃ b ∈ bs, 0 ∈ b) ∧
        ∃ left, d.find true (Path.join p (Path.ofComponents false bs)) = d.walk true left place bs := by
  obtain ⟨x, hx⟩ := List.exists_mem_of_ne_nil bs hne
  have hdir : d.find true (joined p (hbs x hx)).dir = .ok (.node place .directory) := hclean
  obtain ⟨hadmissible, hleads⟩ := (joined p (hbs x hx)).find_dir.1 hdir
  have hslash := Path.no_slash_of_mem (p := p) hbs
  have hall : Path.cleanComponents p ++ bs ≠ [] := by simp [hne]
  have hnul : (Path.join p (Path.ofComponents false bs)).contains [0] = true ↔ ∃ b ∈ bs, 0 ∈ b := by
    rw [Bytes.contains_singleton, Path.join_ofComponents p hbs, mem_ofComponents hall hslash (by decide)]
    refine ⟨fun ⟨c, hc, hmem⟩ => ?_, fun ⟨b, hb, hmem⟩ => ⟨b, List.mem_append_right _ hb, hmem⟩⟩
    rcases List.mem_append.1 hc with hc | hc
    · have hmem' : 0 ∈ Path.clean p := (mem_ofComponents (List.ne_nil_of_mem hc)
        (fun c hc => Path.no_slash_of_mem_components (Path.mem_of_mem_cleaned hc)) (by decide)).2 ⟨c, hc, hmem⟩
      have hcontains := Bytes.contains_singleton.2 hmem'
      rw [show Path.clean p = (joined p (hbs x hx)).dir from rfl, hadmissible.no_nul] at hcontains
      cases hcontains
    · exact ⟨c, hc, hmem⟩
  by_cases h : ∃ b ∈ bs, 0 ∈ b
  · exact .inl ⟨h, by rw [find, if_pos (hnul.2 h)]⟩
  · refine .inr ⟨h, ?_⟩
    have hcomponents : Path.components (Path.join p (Path.ofComponents false bs)) =
        (joined p (hbs x hx)).lead (joined p (hbs x hx)).above.length ++ bs := by
      rw [Path.join_ofComponents p hbs, Path.components_ofComponents _ hall hslash, lead_joined, List.append_assoc]
    have hnil : Path.join p (Path.ofComponents false bs) ≠ [] := by
      intro hnil
      rw [hnil, show Path.components [] = [[]] by decide] at hcomponents
      have hmem : x ∈ [([] : Bytes)] := by
        rw [hcomponents]
        exact List.mem_append_right _ hx
      exact (hbs x hx).ne_nil (List.mem_singleton.1 hmem)
    obtain ⟨left, hleft⟩ := hleads.walk_append hne true
    refine ⟨left, ?_⟩
    rw [find, if_neg (fun hc => h (hnul.1 hc)), if_neg hnil, if_neg (by omega), hcomponents,
      Path.isAbsolute_join_ofComponents hbs]
    exact hleft

/-- In two spellings of a directory, a path that nowhere leads up leads to the same node below it, unless it meets a
limit of the system. -/
theorem find_join_eq {p' : Path} (hp : p ≠ []) (hp' : p' ≠ [])
    (hclean : d.find true (Path.clean p) = .ok (.node place .directory))
    (hclean' : d.find true (Path.clean p') = .ok (.node place .directory)) (hq : q ≠ [])
    (hup : Path.dotDot ∉ Path.components q)
    (hroom : (Path.join p q).length < maxPath) (hroom' : (Path.join p' q).length < maxPath)
    (hlinks : d.find true (Path.join p q) ≠ .error .tooManyLinks)
    (hlinks' : d.find true (Path.join p' q) ≠ .error .tooManyLinks) :
    d.find true (Path.join p q) = d.find true (Path.join p' q) := by
  rw [join_of_not_mem hp hq hup] at hroom hlinks ⊢
  rw [join_of_not_mem hp' hq hup] at hroom' hlinks' ⊢
  have hplain : ∀ c ∈ moving (Path.components q), Path.Plain c := fun c hc => plain_of_mem_moving hup hc
  generalize moving (Path.components q) = bs at *
  by_cases hne : bs = []
  · subst hne
    have hnone : ∀ p : Path, Path.join p (Path.ofComponents false []) = Path.clean p := by
      intro p
      rw [Path.join_ofComponents p (by simp), List.append_nil]
      rfl
    rw [hnone, hnone, hclean, hclean']
  rcases find_join_cases hclean hplain hne hroom with ⟨hnul, hfind⟩ | ⟨hnul, left, hfind⟩ <;>
    rcases find_join_cases hclean' hplain hne hroom' with ⟨hnul', hfind'⟩ | ⟨hnul', left', hfind'⟩
  · rw [hfind, hfind']
  · exact absurd hnul hnul'
  · exact absurd hnul' hnul
  · rw [hfind] at hlinks ⊢
    rw [hfind'] at hlinks' ⊢
    rcases Nat.le_total left left' with hle | hle
    · exact (walk_budget hle hlinks).symm
    · exact walk_budget hle hlinks'

end Disk

end ShaderForge
