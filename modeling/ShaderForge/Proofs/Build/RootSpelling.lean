import Mathlib
import ShaderForge.Proofs.Build.Discovery
import ShaderForge.Proofs.Files.Spelling

/-!
# ShaderForge.Proofs.Build.RootSpelling

How the root of a search is spelled. Two paths may lead to one directory; a search from the one then gives the jobs of
a search from the other, but for the paths of their sources. A path that is itself a link is searched by no one.

* `Outlook`           — a path from which a directory can be searched.
* `Job.under`         — a job, seen from another root.
* `Respelled`         — the results of two searches that differ by the spelling of the root only.
* `discover_respelled` — searches from two such paths, both or neither of them links.
* `discover_link_empty` — a link to a directory with a shader, from which none is found.
-/

namespace ShaderForge

/-- The path leads to the directory at the place, its clean spelling does so too, and no limit of the system keeps a
search from the ignore file and the directories below. -/
structure Outlook (d : Disk) (ignoreFile root : Path) (place : Place) : Prop where
  directory : d.find true root = .ok (.node place .directory)
  clean : d.find true (Path.clean root) = .ok (.node place .directory)
  room : ∀ rules, loadIgnore d root ignoreFile = .ok rules → ∀ below, below ≠ [] →
    d.node? (place ++ below) = some .directory → Shown rules.ignores below →
    (Path.join root (relativePath below)).length < Disk.maxPath
  ignoreRoom : (Path.join root ignoreFile).length < Disk.maxPath
  ignoreLinks : d.find true (Path.join root ignoreFile) ≠ .error .tooManyLinks

def Job.under (root : Path) (j : Job) : Job := { j with path := Path.join root j.relative }

/-- Both searches fail, or they give the same jobs in the same order, but for the paths of the sources. -/
def Respelled (root : Path) (r r' : Except DiscoverError (List Job)) : Prop :=
  (∃ e e', r = .error e ∧ r' = .error e') ∨ ∃ jobs, r = .ok jobs ∧ r' = .ok (jobs.map (Job.under root))

variable {d : Disk} {ignores : Path → Bool} {root root' ignoreFile : Path} {place : Place}

/-! ## The ignore file -/

theorem loadIgnore_of_find_eq (h : d.find true (Path.join root ignoreFile) = d.find true (Path.join root' ignoreFile)) :
    (∃ rules, loadIgnore d root ignoreFile = .ok rules ∧ loadIgnore d root' ignoreFile = .ok rules) ∨
      ∃ e e', loadIgnore d root ignoreFile = .error e ∧ loadIgnore d root' ignoreFile = .error e' := by
  unfold loadIgnore
  by_cases hempty : ignoreFile = []
  · rw [if_pos hempty, if_pos hempty]
    exact .inl ⟨[], rfl, rfl⟩
  rw [if_neg hempty, if_neg hempty]
  have hinspect : d.inspect true (Path.join root ignoreFile) = d.inspect true (Path.join root' ignoreFile) := by
    rw [Disk.inspect, Disk.inspect, h]
  unfold Disk.stat Disk.contents
  dsimp only
  rw [← hinspect]
  cases d.inspect true (Path.join root ignoreFile) with
  | ok found =>
    obtain ⟨q, n⟩ := found
    cases n with
    | file content time => exact .inl ⟨_, rfl, rfl⟩
    | directory | link => exact .inr ⟨_, _, rfl, rfl⟩
  | error cause =>
    cases cause with
    | notFound => exact .inl ⟨_, rfl, rfl⟩
    | _ => exact .inr ⟨_, _, rfl, rfl⟩

theorem Outlook.ne_nil (h : Outlook d ignoreFile root place) : root ≠ [] :=
  (Disk.find_eq_ok_iff.1 h.directory).1.ne_nil

theorem Outlook.loadIgnore_eq (h : Outlook d ignoreFile root place) (h' : Outlook d ignoreFile root' place)
    (hup : Path.dotDot ∉ Path.components ignoreFile) :
    (∃ rules, loadIgnore d root ignoreFile = .ok rules ∧ loadIgnore d root' ignoreFile = .ok rules) ∨
      ∃ e e', loadIgnore d root ignoreFile = .error e ∧ loadIgnore d root' ignoreFile = .error e' := by
  by_cases hempty : ignoreFile = []
  · subst hempty
    exact .inl ⟨[], rfl, rfl⟩
  · exact loadIgnore_of_find_eq (Disk.find_join_eq h.ne_nil h'.ne_nil h.clean h'.clean hempty hup h.ignoreRoom
      h'.ignoreRoom h.ignoreLinks h'.ignoreLinks)

/-! ## The jobs -/

theorem clash?_map_under (root : Path) (seen js : List Job) :
    clash? (seen.map (Job.under root)) (js.map (Job.under root)) = clash? seen js := by
  induction js generalizing seen with
  | nil => rfl
  | cons j js ih =>
    have hfind : (seen.map (Job.under root)).find? (·.artifact = (j.under root).artifact) =
        (seen.find? (·.artifact = j.artifact)).map (Job.under root) := by
      rw [List.find?_map]
      rfl
    rw [List.map_cons, clash?, clash?, hfind]
    cases seen.find? (·.artifact = j.artifact) with
    | some first => rfl
    | none => exact ih (j :: seen)

/-- The shaders of a directory, sorted by their paths below it, are the same from each of its paths. -/
theorem Ground.jobs_respelled (h : Ground d ignores root place) {jobs jobs' : List Job}
    (hfinds : Finds d ignores root place [] jobs) (hfinds' : Finds d ignores root' place [] jobs')
    (hsorted : jobs.Pairwise fun a b => Bytes.precedes a.relative b.relative = true)
    (hsorted' : jobs'.Pairwise fun a b => Bytes.precedes a.relative b.relative = true) :
    jobs' = jobs.map (Job.under root') := by
  have hmem : ∀ j, j ∈ jobs.map (Job.under root') ↔ j ∈ jobs' := by
    intro j
    rw [List.mem_map, hfinds'.mem]
    constructor
    · rintro ⟨i, hi, rfl⟩
      obtain ⟨below, hshader, rfl⟩ := (hfinds.mem i).1 hi
      exact ⟨below, hshader, rfl⟩
    · rintro ⟨below, hshader, rfl⟩
      exact ⟨_, (hfinds.mem _).2 ⟨below, hshader, rfl⟩, rfl⟩
  have hnodup : (jobs.map (Job.under root')).Nodup := by
    refine hfinds.nodup.map_on fun i hi j hj heq => ?_
    obtain ⟨below, hshader, rfl⟩ := (hfinds.mem i).1 hi
    obtain ⟨below', hshader', rfl⟩ := (hfinds.mem j).1 hj
    have hrelative : relativePath ([] ++ below) = relativePath ([] ++ below') := congrArg Job.relative heq
    rw [h.eq_of_relativePath hshader hshader' hrelative]
  have hperm : jobs'.Perm (jobs.map (Job.under root')) :=
    (List.perm_ext_iff_of_nodup hfinds'.nodup hnodup).2 fun j => (hmem j).symm
  refine hperm.eq_of_pairwise (fun a b _ _ hab hba => ?_) hsorted' (List.pairwise_map.2 hsorted)
  have hcycle := Bytes.precedes_trans _ _ _ hab hba
  rw [Bytes.precedes_irrefl] at hcycle
  cases hcycle

theorem Ground.shadersUnder_respelled (h : Ground d ignores root place) (h' : Ground d ignores root' place) :
    Respelled root' (shadersUnder d root ignores) (shadersUnder d root' ignores) := by
  obtain ⟨jobs, hfinds, hsorted, hclash, hsound⟩ := h.shadersUnder_eq
  obtain ⟨jobs', hfinds', hsorted', hclash', hsound'⟩ := h'.shadersUnder_eq
  obtain rfl := h.jobs_respelled hfinds hfinds' hsorted hsorted'
  have hsame : clash? [] (jobs.map (Job.under root')) = clash? [] jobs := clash?_map_under root' [] jobs
  cases hc : clash? [] jobs with
  | some e => exact .inl ⟨e, e, hclash e hc, hclash' e (hsame.trans hc)⟩
  | none => exact .inr ⟨jobs, hsound hc, hsound' (hsame.trans hc)⟩

theorem shadersUnder_of_link {q : Place} {target : Path} (h : d.find false root = .ok (.node q (.link target))) :
    shadersUnder d root ignores = .ok [] := by
  rw [shadersUnder, Disk.lstat, Disk.inspect, h]

/-! ## Searches -/

theorem discover_of_find (h : d.find true root = .ok (.node place .directory)) (ignoreFile : Path) :
    discover d root ignoreFile = loadIgnore d root ignoreFile >>= fun rules => shadersUnder d root rules.ignores := by
  have hstat : d.stat root = .ok .directory := by rw [Disk.stat, Disk.inspect, h]
  unfold discover
  rw [hstat]
  cases loadIgnore d root ignoreFile <;> rfl

theorem Outlook.ground (h : Outlook d ignoreFile root place) (htree : d.Proper)
    (hown : d.find false root = d.find true root) {rules : IgnoreRules}
    (hrules : loadIgnore d root ignoreFile = .ok rules) : Ground d rules.ignores root place where
  tree := htree
  directory := hown.trans h.directory
  clean := h.clean
  room := h.room rules hrules

theorem Outlook.shadersUnder_of_ne (h : Outlook d ignoreFile root place) (hlink : d.find false root ≠ d.find true root) :
    shadersUnder d root ignores = .ok [] := by
  rcases Disk.find_nofollow h.directory with hown | ⟨q, target, hq⟩
  · exact absurd (hown.trans h.directory.symm) hlink
  · exact shadersUnder_of_link hq

/-- Two paths to a directory give the same jobs, or fail both, if both of them are links or neither is. A path that is
itself a link gives no jobs. -/
theorem discover_respelled (htree : d.Proper) (h : Outlook d ignoreFile root place)
    (h' : Outlook d ignoreFile root' place) (hup : Path.dotDot ∉ Path.components ignoreFile) :
    ((d.find false root = d.find true root ↔ d.find false root' = d.find true root') →
      Respelled root' (discover d root ignoreFile) (discover d root' ignoreFile)) ∧
    (d.find false root ≠ d.find true root →
      discover d root ignoreFile = .ok [] ∨
        ∃ e e', discover d root ignoreFile = .error e ∧ discover d root' ignoreFile = .error e') := by
  rw [discover_of_find h.directory, discover_of_find h'.directory]
  rcases h.loadIgnore_eq h' hup with ⟨rules, hrules, hrules'⟩ | ⟨e, e', hrules, hrules'⟩
  · rw [hrules, hrules']
    refine ⟨fun hlinks => ?_, fun hlink => .inl (h.shadersUnder_of_ne hlink)⟩
    by_cases hown : d.find false root = d.find true root
    · exact (h.ground htree hown hrules).shadersUnder_respelled (h'.ground htree (hlinks.1 hown) hrules')
    · have hlink' : d.find false root' ≠ d.find true root' := fun hown' => hown (hlinks.2 hown')
      exact .inr ⟨[], h.shadersUnder_of_ne hown, h'.shadersUnder_of_ne hlink'⟩
  · rw [hrules, hrules']
    exact ⟨fun _ => .inl ⟨e, e', rfl, rfl⟩, fun _ => .inr ⟨e, e', rfl, rfl⟩⟩

/-- A directory with an ignore file that is a link, and two links to it or into it. -/
def linkedShelf : Disk where
  nodes := [
    ([utf8 "lib"], .directory), ([utf8 "lib", utf8 "a.hlsl"], .file "" 0), ([utf8 "lib", utf8 "sub"], .directory),
    ([utf8 "lib", utf8 "sub", utf8 "B.hlsl"], .file "" 0), ([utf8 "lib", utf8 "old"], .directory),
    ([utf8 "lib", utf8 "old", utf8 "a.hlsl"], .file "" 0), ([utf8 "lib", utf8 ".skip"], .link "../rules"),
    ([utf8 "rules"], .file "old" 0), ([utf8 "q"], .directory), ([utf8 "q", utf8 "way"], .link "../lib"),
    ([utf8 "inner"], .link "lib/sub")]

theorem proper_linkedShelf : linkedShelf.Proper := .of_parents (by decide) (by decide) (by decide)

theorem outlook_linkedShelf : Outlook linkedShelf ".skip" "/lib" [utf8 "lib"] where
  directory := by cbv
  clean := by cbv
  room _ _ below _ hdir _ := by
    have hroom : ∀ e ∈ linkedShelf.nodes, (Path.join "/lib" (relativePath e.1.tail)).length < Disk.maxPath := by decide
    exact hroom _ (Disk.mem_nodes (by simp) hdir)
  ignoreRoom := by decide
  ignoreLinks := by
    have hfind : linkedShelf.find true (Path.join "/lib" ".skip") = .ok (.node [utf8 "rules"] (.file "old" 0)) := by cbv
    simp [hfind]

theorem outlook_linkedShelf_way : Outlook linkedShelf ".skip" "/q/way/" [utf8 "lib"] where
  directory := by cbv
  clean := by cbv
  room _ _ below _ hdir _ := by
    have hroom : ∀ e ∈ linkedShelf.nodes, (Path.join "/q/way/" (relativePath e.1.tail)).length < Disk.maxPath := by
      decide
    exact hroom _ (Disk.mem_nodes (by simp) hdir)
  ignoreRoom := by decide
  ignoreLinks := by
    have hfind : linkedShelf.find true (Path.join "/q/way/" ".skip") = .ok (.node [utf8 "rules"] (.file "old" 0)) := by
      cbv
    simp [hfind]

/-- A slash behind the link makes it a path to the directory, with the same rule and the same shaders. -/
theorem discover_respelled_slash :
    linkedShelf.Proper ∧ Outlook linkedShelf ".skip" "/lib" [utf8 "lib"] ∧
    Outlook linkedShelf ".skip" "/q/way/" [utf8 "lib"] ∧
    (loadIgnore linkedShelf "/q/way/" ".skip").toOption.map List.length = some 1 ∧
    Respelled "/q/way/" (discover linkedShelf "/lib" ".skip") (discover linkedShelf "/q/way/" ".skip") := by
  have hown : linkedShelf.find false "/lib" = linkedShelf.find true "/lib" := by cbv
  have hown' : linkedShelf.find false "/q/way/" = linkedShelf.find true "/q/way/" := by cbv
  refine ⟨proper_linkedShelf, outlook_linkedShelf, outlook_linkedShelf_way, by cbv, ?_⟩
  exact (discover_respelled proper_linkedShelf outlook_linkedShelf outlook_linkedShelf_way (by decide)).1
    (iff_of_true hown hown')

/-- Four paths to one directory with three shaders. From the link no shader is found. Where the clean spelling leads
elsewhere the search fails, and an ignore file above the directory is looked for beside the link. -/
theorem discover_link_empty :
    (linkedShelf.stat "/lib" = .ok .directory ∧
      ∀ root ∈ [utf8 "/q/way", utf8 "/q/way/", utf8 "/inner/.."],
        linkedShelf.find true root = linkedShelf.find true "/lib") ∧
    discover linkedShelf "/lib" "" = .ok [shaderJob "/lib" [utf8 "a.hlsl"],
      shaderJob "/lib" [utf8 "old", utf8 "a.hlsl"], shaderJob "/lib" [utf8 "sub", utf8 "B.hlsl"]] ∧
    discover linkedShelf "/q/way" "" = .ok [] ∧
    discover linkedShelf "/inner/.." "" = .error (.root ⟨"open", "/old", .notFound⟩) ∧
    (loadIgnore linkedShelf "/lib" "../rules").toOption.map List.length = some 1 ∧
    loadIgnore linkedShelf "/q/way/" "../rules" = .ok [] := by
  refine ⟨⟨by cbv, ?_⟩, by cbv, by cbv, by cbv, by cbv, by cbv⟩
  intro root hroot
  simp only [List.mem_cons, List.not_mem_nil, or_false] at hroot
  rcases hroot with rfl | rfl | rfl <;> cbv

end ShaderForge
