import Mathlib
import ShaderForge.Proofs.Build.Scheduling
import ShaderForge.Proofs.Files.Listing
import ShaderForge.Proofs.Pipeline.Atomic
import ShaderForge.Proofs.Text.Case

/-!
# ShaderForge.Proofs.Build.Discovery

Which shaders a search finds, told without the walk that finds them.

* `IsShader`        — the source files below a root that no rule leaves out.
* `shaderJob`       — the job of one of them.
* `Ground`          — a directory that can be searched.
* `Ground.jobsBelow_finds` — the walk from a directory comes to the shaders below it, each of them once.
* `discovery_exact` — a search gives one job for each shader in the order of their paths, unless two artifacts clash.
-/

namespace ShaderForge

open Bytes (slash)

/-! ## The shaders of a tree -/

/-- Neither the entry that the components lead to nor a directory on the way is hidden or ignored. -/
structure Shown (ignores : Path → Bool) (below : List Bytes) : Prop where
  visible : ∀ c ∈ below, isHidden c = false
  kept : ∀ front, front ≠ [] → front <+: below → ignores (relativePath front) = false

instance (ignores : Path → Bool) (below : List Bytes) : Decidable (Shown ignores below) :=
  decidable_of_iff ((∀ c ∈ below, isHidden c = false) ∧
      ∀ front ∈ below.inits, front ≠ [] → ignores (relativePath front) = false)
    ⟨fun h => ⟨h.1, fun front hne hfront => h.2 front ((List.mem_inits _ _).2 hfront) hne⟩,
      fun h => ⟨h.visible, fun front hfront hne => h.kept front hne ((List.mem_inits _ _).1 hfront)⟩⟩

/-- The components lead from the place of the root to a shader. -/
structure IsShader (d : Disk) (ignores : Path → Bool) (place : Place) (below : List Bytes) : Prop where
  file : ∃ content time, d.node? (place ++ below) = some (.file content time)
  ext : Bytes.equalFold (Path.ext (below.getLastD [])) shaderExt = true
  shown : Shown ignores below

/-- The artifact of a source: in the same directory, named by its stem in lower case. -/
def artifactOf (below : List Bytes) : Path :=
  relativePath (below.dropLast ++ [artifactName (Path.stem (below.getLastD []))])

def shaderJob (root : Path) (below : List Bytes) : Job where
  name := Path.stem (below.getLastD [])
  path := Path.join root (relativePath below)
  relative := relativePath below
  artifact := artifactOf below

section Shown

variable {ignores : Path → Bool} {above rest : List Bytes} {c : Bytes}

theorem shown_nil (ignores : Path → Bool) : Shown ignores [] :=
  ⟨by simp, fun _ hne hfront => absurd (List.prefix_nil.1 hfront) hne⟩

theorem Shown.append_left (h : Shown ignores (above ++ rest)) : Shown ignores above :=
  ⟨fun c hc => h.visible c (List.mem_append_left _ hc),
    fun front hne hfront => h.kept front hne (hfront.trans (List.prefix_append _ _))⟩

theorem shown_concat_iff : Shown ignores (above ++ [c]) ↔
    Shown ignores above ∧ isHidden c = false ∧ ignores (relativePath (above ++ [c])) = false := by
  constructor
  · intro h
    exact ⟨h.append_left, h.visible c (by simp), h.kept _ (by simp) List.prefix_rfl⟩
  · rintro ⟨h, hvisible, hkept⟩
    refine ⟨fun b hb => ?_, fun front hne hfront => ?_⟩
    · rcases List.mem_append.1 hb with hb | hb
      · exact h.visible b hb
      · rwa [List.mem_singleton.1 hb]
    · rcases List.prefix_concat_iff.1 hfront with rfl | hfront
      · exact hkept
      · exact h.kept front hne hfront

end Shown

/-! ## Paths of jobs -/

theorem relativePath_eq {cs : List Bytes} (h : cs ≠ []) : relativePath cs = Path.ofComponents false cs := by
  simp [relativePath, Path.ofComponents, h]

theorem relativePath_inj {cs cs' : List Bytes} (hcs : cs ≠ []) (hcs' : cs' ≠ []) (h : ∀ c ∈ cs, Path.Plain c)
    (h' : ∀ c ∈ cs', Path.Plain c) (heq : relativePath cs = relativePath cs') : cs = cs' := by
  have hsplit := congrArg (Bytes.split slash) heq
  rwa [relativePath, relativePath, Bytes.split_join hcs fun c hc => (h c hc).no_slash,
    Bytes.split_join hcs' fun c hc => (h' c hc).no_slash] at hsplit

section Names

variable {dirs : List Bytes} {name : Bytes}

/-- The path of a name in directories below the root, taken apart. -/
def relativeOutput (hdirs : ∀ c ∈ dirs, Path.Plain c) (hname : Path.Plain name) : OutputPath where
  rooted := false
  above := dirs
  base := name
  clean := Path.cleaned_of_plain false hdirs
  no_slash := fun c hc => (hdirs c hc).no_slash
  plain := hname

theorem dir_relativePath (hdirs : ∀ c ∈ dirs, Path.Plain c) (hname : Path.Plain name) :
    Path.dir (relativePath (dirs ++ [name])) = Path.ofComponents false dirs := by
  rw [relativePath_eq (by simp)]
  exact (relativeOutput hdirs hname).dir_path

theorem base_of_plain (hname : Path.Plain name) : Path.base name = name :=
  (@relativeOutput [] name (by simp) hname).base_path

theorem exists_append_ext (hname : slash ∉ name) : ∃ front, name = front ++ Path.ext name := by
  have hlast : Path.lastPart name = name := by
    rw [Path.lastPart, List.takeWhile_eq_self_iff.2 (OutputPath.ne_slash_of_mem_reverse hname), List.reverse_reverse]
  rw [Path.ext, hlast]
  split
  · rename_i hdot
    have hhead := List.head?_dropWhile_not (fun b => decide (b ≠ octet '.')) name.reverse
    have hparts := List.takeWhile_append_dropWhile (p := fun b => decide (b ≠ octet '.')) (l := name.reverse)
    cases hcut : name.reverse.dropWhile fun b => decide (b ≠ octet '.') with
    | nil =>
      rw [List.dropWhile_eq_nil_iff] at hcut
      simpa using hcut _ (List.mem_reverse.2 hdot)
    | cons b front =>
      rw [hcut] at hhead hparts
      obtain rfl : b = octet '.' := by simpa using hhead
      refine ⟨front.reverse, ?_⟩
      have hname := congrArg List.reverse hparts
      simpa using hname.symm
  · exact ⟨name, (List.append_nil name).symm⟩

theorem stem_append_ext (hname : Path.Plain name) : Path.stem name ++ Path.ext name = name := by
  obtain ⟨front, hfront⟩ := exists_append_ext hname.no_slash
  have htrim : Bytes.trimSuffix (front ++ Path.ext name) (Path.ext name) = front := by
    rw [Bytes.trimSuffix, Bytes.before?, List.reverse_append, Bytes.after?_append]
    simp
  rw [← hfront] at htrim
  rw [Path.stem, base_of_plain hname, htrim, ← hfront]

theorem plain_artifactName_stem (hname : Path.Plain name) : Path.Plain (artifactName (Path.stem name)) := by
  refine plain_append (fun hmem => hname.no_slash ?_) (by decide) (by decide)
  rw [← stem_append_ext hname]
  exact List.mem_append_left _ (Bytes.slash_mem_lower hmem)

/-- Below any directory, an artifact's name in the directory of the artifact is the artifact. -/
theorem join_dir_artifactOf (p : Path) (hdirs : ∀ c ∈ dirs, Path.Plain c) (hname : Path.Plain name) :
    Path.join (Path.join p (Path.dir (artifactOf (dirs ++ [name])))) (artifactName (Path.stem name)) =
      Path.join p (artifactOf (dirs ++ [name])) := by
  have hartifact := plain_artifactName_stem hname
  have hsingle : Path.ofComponents false [artifactName (Path.stem name)] = artifactName (Path.stem name) := rfl
  rw [artifactOf, List.dropLast_concat, List.getLastD_concat, dir_relativePath hdirs hartifact,
    relativePath_eq (by simp), ← Path.join_join hdirs (List.forall_mem_singleton.2 hartifact), hsingle]

theorem jobOf_eq (root : Path) (hdirs : ∀ c ∈ dirs, Path.Plain c) (hname : Path.Plain name) :
    jobOf (Path.join root (relativePath (dirs ++ [name]))) (dirs ++ [name]) =
      if Bytes.equalFold (Path.ext name) shaderExt then some (shaderJob root (dirs ++ [name])) else none := by
  have hartifact : Path.join (Path.dir (relativePath (dirs ++ [name]))) (artifactName (Path.stem name)) =
      artifactOf (dirs ++ [name]) := by
    rw [dir_relativePath hdirs hname, artifactOf, List.dropLast_concat, List.getLastD_concat]
    have hjoin := Path.join_ofComponents (Path.ofComponents false dirs)
      (List.forall_mem_singleton.2 (plain_artifactName_stem hname))
    rw [Path.cleanComponents_ofComponents (Path.cleaned_of_plain false hdirs) fun c hc => (hdirs c hc).no_slash,
      OutputPath.isAbsolute_ofComponents fun c hc => ⟨(hdirs c hc).ne_nil, (hdirs c hc).no_slash⟩] at hjoin
    rw [relativePath_eq (by simp)]
    exact hjoin
  rw [jobOf, List.getLastD_concat]
  dsimp only
  split
  · rw [shaderJob, List.getLastD_concat, ← hartifact, Path.stem, base_of_plain hname]
  · rfl

end Names

/-! ## Directories that can be searched -/

/-- The root is the directory at the place, and no rule of the system keeps a search from what is below it. -/
structure Ground (d : Disk) (ignores : Path → Bool) (root : Path) (place : Place) : Prop where
  tree : d.Proper
  directory : d.find false root = .ok (.node place .directory)
  /-- The clean spelling of the root leads to the same directory. -/
  clean : d.find true (Path.clean root) = .ok (.node place .directory)
  room : ∀ below, below ≠ [] → d.node? (place ++ below) = some .directory → Shown ignores below →
    (Path.join root (relativePath below)).length < Disk.maxPath

/-- The path under which a search enters a directory below the root. -/
def entered (root : Path) (above : List Bytes) : Path :=
  if above = [] then root else Path.join root (relativePath above)

theorem join_entered (root : Path) {above : List Bytes} {c : Bytes} (habove : ∀ b ∈ above, Path.Plain b)
    (hc : Path.Plain c) : Path.join (entered root above) c = Path.join root (relativePath (above ++ [c])) := by
  unfold entered
  split
  · rename_i hnil
    rw [hnil]
    rfl
  · rename_i hne
    rw [relativePath_eq hne, relativePath_eq (by simp),
      ← Path.join_join habove (List.forall_mem_singleton.2 hc)]
    rfl

namespace Ground

variable {d : Disk} {ignores : Path → Bool} {root : Path} {place : Place} {above rest : List Bytes} {c : Bytes}

theorem plain (h : Ground d ignores root place) {n : Node} (hn : d.node? (place ++ above) = some n) :
    ∀ c ∈ above, Path.Plain c := fun c hc => (h.tree.fileName hn c hc).plain

theorem find_entered (h : Ground d ignores root place) (hdir : d.node? (place ++ above) = some .directory)
    (hshown : Shown ignores above) :
    d.find true (entered root above) = .ok (.node (place ++ above) .directory) ∧
      d.find true (Path.clean (entered root above)) = .ok (.node (place ++ above) .directory) := by
  induction above using List.reverseRecOn with
  | nil =>
    rw [List.append_nil]
    exact ⟨Disk.find_follow h.directory, h.clean⟩
  | append_singleton above c ih =>
    have hplain := h.plain hdir
    have hname := h.tree.fileName hdir c (by simp)
    have hroom := h.room _ (by simp) hdir hshown
    have habove : ∀ b ∈ above, Path.Plain b := fun b hb => hplain b (List.mem_append_left _ hb)
    rw [← List.append_assoc] at hdir
    obtain ⟨-, hclean⟩ := ih (h.tree.tree _ _ _ hdir) hshown.append_left
    have hentered : entered root (above ++ [c]) = Path.join root (relativePath (above ++ [c])) := if_neg (by simp)
    rw [hentered, relativePath_eq (by simp), Path.clean_join hplain, and_self, ← relativePath_eq (by simp),
      ← join_entered root habove hname.plain, ← List.append_assoc]
    refine Disk.find_join_directory hclean hname ?_ hdir
    rwa [join_entered root habove hname.plain]

theorem length_lt (h : Ground d ignores root place) (hdir : d.node? (place ++ above) = some .directory)
    (hshown : Shown ignores above) : above.length < Disk.maxPath := by
  by_cases hnil : above = []
  · rw [hnil]
    decide
  · have hplain := h.plain hdir
    have hroom := h.room above hnil hdir hshown
    rw [relativePath_eq hnil, Path.join_ofComponents root hplain] at hroom
    refine Nat.lt_of_le_of_lt (le_trans ?_ (Path.length_ofComponents_le fun b hb => ?_)) hroom
    · rw [List.length_append]
      omega
    · rw [← Path.cleaned_cleanComponents_append hplain] at hb
      exact Path.ne_nil_of_mem_cleaned hb

end Ground

/-! ## The walk -/

section Walk

variable {d : Disk} {ignores : Path → Bool} {root : Path} {place : Place} {above rest : List Bytes} {c : Bytes}

/-- The jobs are those of the shaders below the components `above`, each of them once. -/
structure Finds (d : Disk) (ignores : Path → Bool) (root : Path) (place : Place) (above : List Bytes)
    (found : List Job) : Prop where
  nodup : found.Nodup
  mem : ∀ j, j ∈ found ↔ ∃ rest, IsShader d ignores place (above ++ rest) ∧ j = shaderJob root (above ++ rest)

theorem finds_nil (hnone : ∀ rest, ¬ IsShader d ignores place (above ++ rest)) :
    Finds d ignores root place above [] where
  nodup := List.nodup_nil
  mem j := by simp [hnone]

namespace Ground

theorem eq_nil_of_isShader (h : Ground d ignores root place) {n : Node} (hn : d.node? (place ++ above) = some n)
    (hleaf : n ≠ .directory) (hshader : IsShader d ignores place (above ++ rest)) : rest = [] := by
  by_contra hrest
  obtain ⟨content, time, hfile⟩ := hshader.file
  rw [← List.append_assoc, h.tree.tree.node?_below (by simp [hn, hleaf]) rest hrest] at hfile
  cases hfile

theorem ne_nil_of_isShader (hdir : d.node? (place ++ above) = some .directory)
    (hshader : IsShader d ignores place (above ++ rest)) : rest ≠ [] := by
  rintro rfl
  obtain ⟨content, time, hfile⟩ := hshader.file
  rw [List.append_nil, hdir] at hfile
  cases hfile

theorem node?_root (h : Ground d ignores root place) : d.node? (place ++ []) = some .directory := by
  rw [List.append_nil]
  exact Disk.node?_of_find h.directory

theorem plain_of_isShader (h : Ground d ignores root place) (hshader : IsShader d ignores place above) :
    above ≠ [] ∧ ∀ c ∈ above, Path.Plain c := by
  obtain ⟨content, time, hfile⟩ := hshader.file
  exact ⟨@ne_nil_of_isShader d ignores place [] above h.node?_root hshader, h.plain hfile⟩

theorem eq_of_relativePath (h : Ground d ignores root place) {below below' : List Bytes}
    (hshader : IsShader d ignores place below) (hshader' : IsShader d ignores place below')
    (heq : relativePath below = relativePath below') : below = below' := by
  obtain ⟨hne, hplain⟩ := h.plain_of_isShader hshader
  obtain ⟨hne', hplain'⟩ := h.plain_of_isShader hshader'
  exact relativePath_inj hne hne' hplain hplain' heq

theorem finds_file (h : Ground d ignores root place) {content : Bytes} {time : Int}
    (hn : d.node? (place ++ (above ++ [c])) = some (.file content time)) (hshown : Shown ignores (above ++ [c])) :
    Finds d ignores root place (above ++ [c]) (jobOf (entered root (above ++ [c])) (above ++ [c])).toList := by
  have hplain := h.plain hn
  have hshader : ∀ rest, IsShader d ignores place (above ++ [c] ++ rest) ↔
      rest = [] ∧ Bytes.equalFold (Path.ext c) shaderExt = true := by
    intro rest
    constructor
    · intro hshader
      obtain rfl := h.eq_nil_of_isShader hn (by simp) hshader
      have hext := hshader.ext
      rw [List.append_nil, List.getLastD_concat] at hext
      exact ⟨rfl, hext⟩
    · rintro ⟨rfl, hext⟩
      rw [List.append_nil]
      exact ⟨⟨content, time, hn⟩, by rwa [List.getLastD_concat], hshown⟩
  rw [entered, if_neg (by simp), jobOf_eq root (fun b hb => hplain b (List.mem_append_left _ hb)) (hplain c (by simp))]
  split
  · rename_i hext
    refine ⟨List.nodup_singleton _, fun j => ?_⟩
    rw [Option.toList_some, List.mem_singleton]
    constructor
    · intro hj
      exact ⟨[], (hshader []).2 ⟨rfl, hext⟩, by rwa [List.append_nil]⟩
    · rintro ⟨rest, hrest, rfl⟩
      rw [((hshader rest).1 hrest).1, List.append_nil]
  · rename_i hext
    exact finds_nil fun rest hrest => hext ((hshader rest).1 hrest).2

theorem visit_finds (h : Ground d ignores root place) (hshown : Shown ignores above)
    {walk : Path → List Bytes → Except FileError (List Job)} {n : Node}
    (hn : d.node? (place ++ (above ++ [c])) = some n)
    (hwalk : n = .directory → Shown ignores (above ++ [c]) →
      ∃ found, walk (entered root (above ++ [c])) (above ++ [c]) = .ok found ∧
        Finds d ignores root place (above ++ [c]) found) :
    ∃ found, visit ignores walk (entered root above) above (c, n) = .ok found ∧
      Finds d ignores root place (above ++ [c]) found := by
  have hplain := h.plain hn
  have habove : ∀ b ∈ above, Path.Plain b := fun b hb => hplain b (List.mem_append_left _ hb)
  have hc : Path.Plain c := hplain c (by simp)
  have hentered : entered root (above ++ [c]) = Path.join root (relativePath (above ++ [c])) := if_neg (by simp)
  unfold visit
  dsimp only
  rw [join_entered root habove hc, ← hentered]
  by_cases hskip : (isHidden c || ignores (relativePath (above ++ [c]))) = true
  · refine ⟨[], if_pos hskip, finds_nil fun rest hshader => ?_⟩
    obtain ⟨-, hvisible, hkept⟩ := shown_concat_iff.1 hshader.shown.append_left
    simp [hvisible, hkept] at hskip
  · rw [if_neg hskip]
    have hshown' : Shown ignores (above ++ [c]) := by
      simp only [Bool.or_eq_true, not_or, Bool.not_eq_true] at hskip
      exact shown_concat_iff.2 ⟨hshown, hskip⟩
    cases n with
    | directory => exact hwalk rfl hshown'
    | link target =>
      refine ⟨[], rfl, finds_nil fun rest hshader => ?_⟩
      obtain rfl := h.eq_nil_of_isShader hn (by simp) hshader
      obtain ⟨content, time, hfile⟩ := hshader.file
      rw [List.append_nil, hn] at hfile
      cases hfile
    | file content time => exact ⟨_, rfl, h.finds_file hn hshown'⟩

theorem finds_of_list (h : Ground d ignores root place) (habove : d.node? (place ++ above) = some .directory)
    {f : Bytes × Node → Except FileError (List Job)}
    (hf : ∀ e ∈ d.list (place ++ above), ∃ found, f e = .ok found ∧ Finds d ignores root place (above ++ [e.1]) found) :
    ∃ found, (d.list (place ++ above)).mapM f = .ok found ∧ Finds d ignores root place above found.flatten := by
  have hdisjoint : (d.list (place ++ above)).Pairwise fun e e' => ∀ j,
      (∃ rest, IsShader d ignores place (above ++ [e.1] ++ rest) ∧ j = shaderJob root (above ++ [e.1] ++ rest)) →
      ¬ ∃ rest, IsShader d ignores place (above ++ [e'.1] ++ rest) ∧ j = shaderJob root (above ++ [e'.1] ++ rest) := by
    refine h.tree.nodup_list.pairwise_of_forall_ne fun e he e' he' hne j => ?_
    rintro ⟨rest, hshader, rfl⟩ ⟨rest', hshader', heq⟩
    have hbelow := h.eq_of_relativePath hshader hshader' (congrArg Job.relative heq)
    have hname : e.1 = e'.1 := by simpa using congrArg (fun l => l[above.length]?) hbelow
    have hnode : some e.2 = some e'.2 := by
      rw [← h.tree.mem_list.1 he, ← h.tree.mem_list.1 he', hname]
    exact hne (Prod.ext hname (Option.some.inj hnode))
  obtain ⟨found, hfound, hnodup, hmem⟩ := exists_mapM_flatten
    (fun e he => (hf e he).imp fun _ hr => ⟨hr.1, hr.2.nodup, hr.2.mem⟩) hdisjoint
  refine ⟨found, hfound, hnodup, fun j => (hmem j).trans ?_⟩
  constructor
  · rintro ⟨e, -, rest, hshader, rfl⟩
    exact ⟨[e.1] ++ rest, by rwa [← List.append_assoc], by rw [← List.append_assoc]⟩
  · rintro ⟨rest, hshader, rfl⟩
    cases rest with
    | nil => exact absurd rfl (ne_nil_of_isShader habove hshader)
    | cons c rest =>
      -- the first component on the way to the shader is listed, since the disk is a tree
      rw [List.append_cons] at hshader ⊢
      cases hn : d.node? (place ++ above ++ [c]) with
      | none =>
        obtain ⟨content, time, hfile⟩ := hshader.file
        rw [h.tree.tree.node?_of_prefix hn (by simp [← List.append_assoc])] at hfile
        cases hfile
      | some n => exact ⟨(c, n), h.tree.mem_list.2 hn, rest, hshader, rfl⟩

theorem jobsBelow_finds (h : Ground d ignores root place) (budget : Nat) (above : List Bytes)
    (habove : d.node? (place ++ above) = some .directory) (hshown : Shown ignores above)
    (hbudget : Disk.maxPath ≤ above.length + budget) :
    ∃ found, jobsBelow d ignores budget (entered root above) above = .ok found ∧
      Finds d ignores root place above found := by
  induction budget generalizing above with
  | zero =>
    -- a path with as many components would be too long
    have hshort := h.length_lt habove hshown
    omega
  | succ budget ih =>
    obtain ⟨found, hfound, hfinds⟩ := h.finds_of_list habove
      (f := visit ignores (jobsBelow d ignores budget) (entered root above) above) fun e he => by
        have hn := h.tree.mem_list.1 he
        rw [List.append_assoc] at hn
        refine h.visit_finds hshown hn fun hdir hshown' => ih _ (hdir ▸ hn) hshown' ?_
        rw [List.length_append, List.length_singleton]
        omega
    refine ⟨found.flatten, ?_, hfinds⟩
    rw [jobsBelow, Disk.readDir_of_find (h.find_entered habove hshown).1]
    exact congrArg (Except.map List.flatten) hfound

end Ground

end Walk

/-! ## The order of the jobs, and artifacts that clash -/

theorem sorts_precedes {α : Type} (key : α → Bytes) : Sorts fun a b => Bytes.precedes (key a) (key b) where
  trans a b c hab hbc := by
    cases hac : Bytes.precedes (key a) (key c) with
    | false => rfl
    | true =>
      cases hba : Bytes.precedes (key b) (key a) with
      | false =>
        rw [Bytes.precedes_total _ _ hab hba, hbc] at hac
        cases hac
      | true =>
        rw [Bytes.precedes_trans _ _ _ hba hac] at hbc
        cases hbc
  asymm a b hab := by
    cases hba : Bytes.precedes (key b) (key a) with
    | false => rfl
    | true =>
      have hcycle := Bytes.precedes_trans _ _ _ hab hba
      rw [Bytes.precedes_irrefl] at hcycle
      cases hcycle

theorem pairwise_sortBy_relative {found : List Job} (h : (found.map Job.relative).Nodup) :
    (sortBy (fun a b => Bytes.precedes a.relative b.relative) found).Pairwise
      fun a b => Bytes.precedes a.relative b.relative = true := by
  rw [← ((sortBy_perm _).map Job.relative).nodup_iff, List.Nodup, List.pairwise_map] at h
  refine ((sortBy_pairwise (sorts_precedes Job.relative) found).and h).imp ?_
  rintro a b ⟨hba, hne⟩
  by_contra hab
  exact hne (Bytes.precedes_total _ _ (by simpa using hab) hba)

theorem clash?_eq_none_iff {seen js : List Job} :
    clash? seen js = none ↔
      (js.map Job.artifact).Nodup ∧ ∀ s ∈ seen, ∀ j ∈ js, s.artifact ≠ j.artifact := by
  induction js generalizing seen with
  | nil => simp [clash?]
  | cons j js ih =>
    rw [clash?]
    split
    · rename_i first hfirst
      have hmem := List.mem_of_find?_eq_some hfirst
      have heq : first.artifact = j.artifact := by simpa using List.find?_some hfirst
      exact ⟨nofun, fun h => absurd heq (h.2 first hmem j List.mem_cons_self)⟩
    · rename_i hnone
      have hseen : ∀ s ∈ seen, s.artifact ≠ j.artifact := by simpa using hnone
      rw [ih, List.map_cons, List.nodup_cons]
      simp only [List.mem_map, List.mem_cons]
      grind

theorem sublist_of_clash? {seen js : List Job} {e : DiscoverError} (h : clash? seen js = some e) :
    ∃ first second, [first, second].Sublist (seen.reverse ++ js) ∧ first.artifact = second.artifact ∧
      e = .duplicate first.relative second.relative first.artifact := by
  induction js generalizing seen with
  | nil => cases h
  | cons j js ih =>
    rw [clash?] at h
    split at h
    · rename_i first hfirst
      cases h
      have heq : first.artifact = j.artifact := by simpa using List.find?_some hfirst
      refine ⟨first, j, ?_, heq, by rw [heq]⟩
      have hmem : first ∈ seen.reverse := List.mem_reverse.2 (List.mem_of_find?_eq_some hfirst)
      exact (List.singleton_sublist.2 hmem).append (List.singleton_sublist.2 List.mem_cons_self)
    · simpa using ih h

namespace Ground

variable {d : Disk} {ignores : Path → Bool} {root : Path} {place : Place}

/-- A search finds the shaders below its root; then the artifacts are compared. -/
theorem shadersUnder_eq (h : Ground d ignores root place) :
    ∃ jobs, Finds d ignores root place [] jobs ∧
      jobs.Pairwise (fun a b => Bytes.precedes a.relative b.relative = true) ∧
      (∀ e, clash? [] jobs = some e → shadersUnder d root ignores = .error e) ∧
      (clash? [] jobs = none → shadersUnder d root ignores = .ok jobs) := by
  obtain ⟨found, hfound, hfinds⟩ := h.jobsBelow_finds Disk.maxPath [] h.node?_root (shown_nil ignores) (by simp)
  have hperm : (sortBy (fun a b : Job => Bytes.precedes a.relative b.relative) found).Perm found := sortBy_perm found
  have hdistinct : (found.map Job.relative).Nodup := by
    refine hfinds.nodup.map_on fun a ha b hb heq => ?_
    obtain ⟨below, hshader, rfl⟩ := (hfinds.mem a).1 ha
    obtain ⟨below', hshader', rfl⟩ := (hfinds.mem b).1 hb
    rw [h.eq_of_relativePath hshader hshader' heq]
  refine ⟨sortBy (fun a b => Bytes.precedes a.relative b.relative) found,
    ⟨hperm.nodup_iff.2 hfinds.nodup, fun j => hperm.mem_iff.trans (hfinds.mem j)⟩,
    pairwise_sortBy_relative hdistinct, fun e hclash => ?_, fun hclash => ?_⟩ <;>
  · have hwalk : jobsBelow d ignores Disk.maxPath root [] = .ok found := hfound
    rw [shadersUnder, Disk.lstat, Disk.inspect, h.directory]
    dsimp only
    rw [hwalk]
    dsimp only
    rw [hclash]

theorem discover_eq (h : Ground d ignores root place) {ignoreFile : Path} {rules : IgnoreRules}
    (hrules : loadIgnore d root ignoreFile = .ok rules) :
    discover d root ignoreFile = shadersUnder d root rules.ignores := by
  rw [discover, Disk.stat, Disk.inspect, Disk.find_follow h.directory]
  dsimp only
  rw [hrules]

/-- Two shaders with one artifact are told apart by their paths in what goes wrong. -/
theorem shadersUnder_of_clash (h : Ground d ignores root place) {a b : List Bytes} (ha : IsShader d ignores place a)
    (hb : IsShader d ignores place b) (hne : a ≠ b) (heq : artifactOf a = artifactOf b) :
    ∃ a b, IsShader d ignores place a ∧ IsShader d ignores place b ∧ a ≠ b ∧ artifactOf a = artifactOf b ∧
      shadersUnder d root ignores = .error (.duplicate (relativePath a) (relativePath b) (artifactOf a)) := by
  obtain ⟨jobs, hfinds, hsorted, hclash, -⟩ := h.shadersUnder_eq
  cases hc : clash? [] jobs with
  | none =>
    -- then the artifacts of the jobs differ, and so do those of the shaders
    have hinj := List.inj_on_of_nodup_map (clash?_eq_none_iff.1 hc).1
      ((hfinds.mem _).2 ⟨a, ha, rfl⟩) ((hfinds.mem _).2 ⟨b, hb, rfl⟩) heq
    exact absurd (h.eq_of_relativePath ha hb (congrArg Job.relative hinj)) hne
  | some e =>
    obtain ⟨i, j, hsub, hartifact, rfl⟩ := sublist_of_clash? hc
    obtain ⟨a', ha', rfl⟩ := (hfinds.mem i).1 (hsub.subset (by simp))
    obtain ⟨b', hb', rfl⟩ := (hfinds.mem j).1 (hsub.subset (by simp))
    have hbefore : Bytes.precedes (relativePath a') (relativePath b') = true := by
      simpa [shaderJob] using hsorted.sublist hsub
    refine ⟨a', b', ha', hb', ?_, hartifact, hclash _ hc⟩
    rintro rfl
    rw [Bytes.precedes_irrefl] at hbefore
    cases hbefore

theorem shadersUnder_of_distinct (h : Ground d ignores root place)
    (hdistinct : ∀ a b, IsShader d ignores place a → IsShader d ignores place b → artifactOf a = artifactOf b → a = b) :
    ∃ jobs, shadersUnder d root ignores = .ok jobs ∧
      jobs.Pairwise (fun i j => Bytes.precedes i.relative j.relative = true) ∧
      ∀ j, j ∈ jobs ↔ ∃ below, IsShader d ignores place below ∧ j = shaderJob root below := by
  obtain ⟨jobs, hfinds, hsorted, -, hsound⟩ := h.shadersUnder_eq
  refine ⟨jobs, hsound (clash?_eq_none_iff.2 ⟨?_, by simp⟩), hsorted, hfinds.mem⟩
  refine hfinds.nodup.map_on fun i hi j hj heq => ?_
  obtain ⟨a, ha, rfl⟩ := (hfinds.mem i).1 hi
  obtain ⟨b, hb, rfl⟩ := (hfinds.mem j).1 hj
  rw [hdistinct _ _ ha hb heq]

/-- The path of the artifact of a job is the same whether it is put together at once or by directory and name. -/
theorem artifact_path (h : Ground d ignores root place) {below : List Bytes} (hshader : IsShader d ignores place below)
    (outDir : Path) :
    Path.join (Path.join outDir (Path.dir (artifactOf below))) (artifactName (Path.stem (below.getLastD []))) =
      Path.join outDir (artifactOf below) := by
  obtain ⟨hne, hplain⟩ := h.plain_of_isShader hshader
  obtain ⟨dirs, name, rfl⟩ : ∃ dirs name, below = dirs ++ [name] :=
    ⟨_, _, (List.dropLast_append_getLast hne).symm⟩
  rw [List.getLastD_concat]
  exact join_dir_artifactOf outDir (fun c hc => hplain c (List.mem_append_left _ hc)) (hplain name (by simp))

end Ground

/-! ## Artifacts of jobs -/

/-- Between the worlds a shader is encoded and its artifact is put at the path. -/
def PutsArtifact (o : PipelineOptions) (name : Bytes) (source : Path) (backend : Backend) (path : Path)
    (w w' : World) : Prop :=
  ∃ data w₁ P d entry, (encodeSteps o name source backend).run.run w = (.ok data, w₁) ∧
    (w₁.disk.mkdirAll (Path.dir path)).1.find true (Path.dir path) = .ok (.node P .directory) ∧
    w₁.disk.Delivered d path (P ++ [Path.base path]) data ∧ w' = World.log entry { w₁ with disk := d }

theorem putsArtifact_of_compileShader {o : PipelineOptions} {name : Bytes} {source : Path} {backend : Backend}
    {outDir path : Path} {w w' : World} (hrun : (compileShader o name source backend outDir).run w = (.ok path, w')) :
    path = Path.join outDir (artifactName name) ∧
      (w.disk.IsTree → PutsArtifact o name source backend path w w') := by
  have hcourse := compileCourse_of_run o name source backend outDir w
  rw [hrun] at hcourse
  cases hcourse with
  | @written data w₁ w₂ entry hencode hwrite =>
    refine ⟨rfl, fun htree => ?_⟩
    have hkept : w₁.disk.IsTree := by
      have hkeeps := encodeSteps_isTree o name source backend w htree
      rwa [hencode] at hkeeps
    obtain ⟨out, hout, hbase⟩ := exists_outputPath outDir (plain_artifactName hencode)
    rw [← hout] at hwrite ⊢
    obtain ⟨P, d, rfl, hfind, hdelivered, -⟩ := delivered_of_written hkept hwrite
    refine ⟨data, w₁, P, d, entry, hencode, ?_, ?_, rfl⟩
    · rwa [out.dir_path]
    · rwa [out.base_path]

theorem run_compileJob (o : BuildOptions) (j : Job) {w w' : World} {compiled : Except CompileError Path}
    (h : (compileShader o.pipeline j.name j.path o.backend (Path.join o.outputDir (Path.dir j.artifact))).run w =
      (compiled, w')) : (compileJob o j).run w = (.compiled j compiled, w') := by
  have hrun : (compileJob o j).run w =
      (.compiled j ((compileShader o.pipeline j.name j.path o.backend
          (Path.join o.outputDir (Path.dir j.artifact))).run w).1,
        ((compileShader o.pipeline j.name j.path o.backend
          (Path.join o.outputDir (Path.dir j.artifact))).run w).2) := rfl
  rw [hrun, h]

theorem compileShader_of_runJob {o : BuildOptions} {j : Job} {w w' : World} {r : JobResult} {path : Path}
    (hrun : (runJob o j).run w = (r, w')) (hok : r.outcome = .ok path) :
    (compileShader o.pipeline j.name j.path o.backend (Path.join o.outputDir (Path.dir j.artifact))).run w =
      (.ok path, w') := by
  rw [run_runJob] at hrun
  split at hrun
  · cases hrun
    cases hok
  · rcases hcompiled : (compileShader o.pipeline j.name j.path o.backend
      (Path.join o.outputDir (Path.dir j.artifact))).run w with ⟨_ | q, w₁⟩
    · rw [run_compileJob o j hcompiled] at hrun
      cases hrun
      cases hok
    · rw [run_compileJob o j hcompiled] at hrun
      cases hrun
      cases hok
      rfl

/-- A search in a directory finds exactly its shaders: it gives their jobs in the order of their paths, or two of them
whose artifacts clash. The artifact of a job that succeeds comes to lie below the output directory under the path that
its job tells. -/
theorem discovery_exact (d : Disk) (ignores : Path → Bool) (root : Path) (place : Place)
    (h : Ground d ignores root place) :
    (∀ ignoreFile rules, loadIgnore d root ignoreFile = .ok rules → rules.ignores = ignores →
      discover d root ignoreFile = shadersUnder d root ignores) ∧
    ((∃ a b, IsShader d ignores place a ∧ IsShader d ignores place b ∧ a ≠ b ∧ artifactOf a = artifactOf b) →
      ∃ a b, IsShader d ignores place a ∧ IsShader d ignores place b ∧ a ≠ b ∧ artifactOf a = artifactOf b ∧
        shadersUnder d root ignores = .error (.duplicate (relativePath a) (relativePath b) (artifactOf a))) ∧
    ((∀ a b, IsShader d ignores place a → IsShader d ignores place b → artifactOf a = artifactOf b → a = b) →
      ∃ jobs, shadersUnder d root ignores = .ok jobs ∧
        jobs.Pairwise (fun i j => Bytes.precedes i.relative j.relative = true) ∧
        ∀ j, j ∈ jobs ↔ ∃ below, IsShader d ignores place below ∧ j = shaderJob root below) ∧
    ∀ below, IsShader d ignores place below → ∀ (o : BuildOptions) (w w' : World) (r : JobResult) (path : Path),
      (runJob o (shaderJob root below)).run w = (r, w') → r.outcome = .ok path →
      path = Path.join o.outputDir (shaderJob root below).artifact ∧
        (w.disk.IsTree →
          PutsArtifact o.pipeline (shaderJob root below).name (shaderJob root below).path o.backend path w w') := by
  refine ⟨fun ignoreFile rules hrules heq => ?_, ?_, h.shadersUnder_of_distinct, ?_⟩
  · rw [h.discover_eq hrules, heq]
  · rintro ⟨a, b, ha, hb, hne, heq⟩
    exact h.shadersUnder_of_clash ha hb hne heq
  · intro below hshader o w w' r path hrun hok
    obtain ⟨hpath, hputs⟩ := putsArtifact_of_compileShader (compileShader_of_runJob hrun hok)
    exact ⟨hpath.trans (h.artifact_path hshader o.outputDir), hputs⟩

example : shadersUnder { nodes := [([utf8 "A.hlsl"], .file "" 0), ([utf8 "a.hlsl"], .file "" 0)] } "/"
    (fun _ => false) = .error (.duplicate "A.hlsl" "a.hlsl" "a.bin") := by cbv

/-- Shaders in two directories among what a search leaves out: hidden and ignored directories, and a link. -/
def shelf : Disk where
  nodes := [
    ([utf8 "lib"], .directory), ([utf8 "lib", utf8 "b.hlsl"], .file "" 0), ([utf8 "lib", utf8 "sub"], .directory),
    ([utf8 "lib", utf8 "sub", utf8 "B.HLSL"], .file "" 0), ([utf8 "lib", utf8 "a.hlsl"], .link "b.hlsl"),
    ([utf8 "lib", utf8 ".git"], .directory), ([utf8 "lib", utf8 ".git", utf8 "b.hlsl"], .file "" 0),
    ([utf8 "lib", utf8 "old"], .directory), ([utf8 "lib", utf8 "old", utf8 "b.hlsl"], .file "" 0)]

def shelfIgnores : Path → Bool := fun p => p = utf8 "old"

theorem ground_shelf : Ground shelf shelfIgnores "/lib" [utf8 "lib"] where
  tree := .of_parents (by decide) (by decide) (by decide)
  directory := by cbv
  clean := by cbv
  room below _ hdir _ := by
    have hroom : ∀ e ∈ shelf.nodes, (Path.join "/lib" (relativePath e.1.tail)).length < Disk.maxPath := by decide
    exact hroom _ (Disk.mem_nodes (by simp) hdir)

theorem isShader_shelf_iff (below : List Bytes) :
    IsShader shelf shelfIgnores [utf8 "lib"] below ↔
      below = [utf8 "b.hlsl"] ∨ below = [utf8 "sub", utf8 "B.HLSL"] := by
  constructor
  · intro hshader
    obtain ⟨content, time, hfile⟩ := hshader.file
    have hfiles : ∀ e ∈ shelf.nodes, e.2 = .file content time → e.1.tail ∈
        [[utf8 "b.hlsl"], [utf8 "sub", utf8 "B.HLSL"], [utf8 ".git", utf8 "b.hlsl"], [utf8 "old", utf8 "b.hlsl"]] := by
      simp [shelf]
    have hmem := hfiles _ (Disk.mem_nodes (by simp) hfile) rfl
    simp only [List.singleton_append, List.tail_cons, List.mem_cons, List.not_mem_nil, or_false] at hmem
    rcases hmem with rfl | rfl | rfl | rfl
    · exact .inl rfl
    · exact .inr rfl
    · exact absurd (hshader.shown.visible (utf8 ".git") (by simp)) (by decide)
    · exact absurd (hshader.shown.kept [utf8 "old"] (by simp) (by simp)) (by decide)
  · rintro (rfl | rfl)
    · exact ⟨⟨_, _, rfl⟩, by cbv, by decide⟩
    · exact ⟨⟨_, _, rfl⟩, by cbv, by decide⟩

theorem ground_twoStages : Ground twoStageWorld.disk (fun _ => false) "/" [] where
  tree := .of_parents (by decide) (by decide) (by decide)
  directory := by cbv
  clean := by cbv
  room below hne hdir _ := by
    have hroom : ∀ e ∈ twoStageWorld.disk.nodes, (Path.join "/" (relativePath e.1)).length < Disk.maxPath := by decide
    exact hroom _ (Disk.mem_nodes hne hdir)

theorem discovery_exact_shelf :
    let w : World := { twoStageWorld with logging := none }
    let job := shaderJob "/" [utf8 "a.hlsl"]
    Ground shelf shelfIgnores "/lib" [utf8 "lib"] ∧ Ground w.disk (fun _ => false) "/" [] ∧
    (∃ jobs, shadersUnder shelf "/lib" shelfIgnores = .ok jobs ∧
      ∀ j, j ∈ jobs ↔ j = shaderJob "/lib" [utf8 "b.hlsl"] ∨ j = shaderJob "/lib" [utf8 "sub", utf8 "B.HLSL"]) ∧
    ∃ w', PutsArtifact echoOptions job.name job.path .directX12 (Path.join "/tmp/out" job.artifact) w w' := by
  intro w job
  refine ⟨ground_shelf, ground_twoStages, ?_, ?_⟩
  · obtain ⟨-, -, hfound, -⟩ := discovery_exact shelf shelfIgnores "/lib" [utf8 "lib"] ground_shelf
    obtain ⟨jobs, hjobs, -, hmem⟩ := hfound fun a b ha hb => by
      rw [isShader_shelf_iff] at ha hb
      rcases ha with rfl | rfl <;> rcases hb with rfl | rfl <;> decide
    refine ⟨jobs, hjobs, fun j => ?_⟩
    simp [hmem, isShader_shelf_iff]
  · obtain ⟨-, -, -, hruns⟩ := discovery_exact w.disk (fun _ => false) "/" [] ground_twoStages
    have hok : ((compileShader echoOptions "a" "/a.hlsl" .directX12 "/tmp/out").run w).1.isOk = true :=
      isOk_compileShader_twoStages
    rcases hcompiled : (compileShader echoOptions "a" "/a.hlsl" .directX12 "/tmp/out").run w with ⟨_ | path, w'⟩
    · rw [hcompiled] at hok
      cases hok
    have hname : job.name = utf8 "a" := by decide
    have hpath : job.path = utf8 "/a.hlsl" := by decide
    have hdir : Path.join "/tmp/out" (Path.dir job.artifact) = utf8 "/tmp/out" := by decide
    let o : BuildOptions := { pipeline := echoOptions, outputDir := "/tmp/out" }
    have hjob : (compileShader o.pipeline job.name job.path o.backend
        (Path.join o.outputDir (Path.dir job.artifact))).run w = (.ok path, w') := by
      rw [hname, hpath, hdir]
      exact hcompiled
    have hrun : (runJob o job).run w = (⟨job, .ok path⟩, w') := by
      rw [run_runJob, if_neg (by decide), run_compileJob o job hjob]
      rfl
    obtain ⟨hwhere, hputs⟩ := hruns [utf8 "a.hlsl"] ⟨⟨_, _, rfl⟩, by cbv, by decide⟩ _ _ _ _ _ hrun rfl
    rw [hwhere] at hputs
    exact ⟨w', hputs (.of_parents (by decide))⟩

/-- The link leads into `other`, so that the root is `other/proj`. -/
def strayShelf : Disk where
  nodes := [
    ([utf8 "link"], .link "other/sub"), ([utf8 "other"], .directory), ([utf8 "other", utf8 "sub"], .directory),
    ([utf8 "other", utf8 "proj"], .directory), ([utf8 "other", utf8 "proj", utf8 "sub"], .directory),
    ([utf8 "other", utf8 "proj", utf8 "sub", utf8 "a.hlsl"], .file "" 0)]

/-- The root is searched at the path as it is given, but the directories below it under the path as it is cleaned.
Behind a link the two differ, and the only shader of the root is not found. -/
theorem discover_astray :
    strayShelf.Proper ∧
    strayShelf.find false "link/../proj" = .ok (.node [utf8 "other", utf8 "proj"] .directory) ∧
    (∀ below, IsShader strayShelf (IgnoreRules.ignores []) [utf8 "other", utf8 "proj"] below ↔
      below = [utf8 "sub", utf8 "a.hlsl"]) ∧
    loadIgnore strayShelf "link/../proj" [] = .ok [] ∧
    discover strayShelf "link/../proj" [] = .error (.root ⟨"open", "proj/sub", .notFound⟩) := by
  refine ⟨.of_parents (by decide) (by decide) (by decide), by cbv, fun below => ?_, rfl, by cbv⟩
  constructor
  · intro hshader
    obtain ⟨content, time, hfile⟩ := hshader.file
    have hfiles : ∀ e ∈ strayShelf.nodes, e.2 = .file content time → e.1.drop 2 = [utf8 "sub", utf8 "a.hlsl"] := by
      simp [strayShelf]
    exact hfiles _ (Disk.mem_nodes (by simp) hfile) rfl
  · rintro rfl
    exact ⟨⟨_, _, rfl⟩, by cbv, by decide⟩

end ShaderForge
