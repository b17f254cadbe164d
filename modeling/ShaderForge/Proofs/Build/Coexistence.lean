import ShaderForge.Proofs.Build.Discovery
import ShaderForge.Proofs.Build.SharedOutput

/-!
# ShaderForge.Proofs.Build.Coexistence

Whether the artifacts of one build can stand beside each other.

* `Sourced`, `sourced_of_discover` — what a search makes jobs of, whatever its root.
* `Path.Above`         — a path that has to be a directory for another.
* `Outlet`, `Outlet.yard` — an output directory, and the yard that it is.
* `artifacts_coexist`  — artifacts none of which is above another are all written, whoever writes first.
* `artifacts_in_the_way` — a search may find two of which only one can be written.
-/

namespace ShaderForge

open Disk

/-! ## The artifacts of jobs -/

/-- A job as a search makes it of a source, which lies in directories that are not hidden. -/
structure Sourced (dirs : List Bytes) (source : Bytes) (j : Job) : Prop where
  plain_dirs : ∀ c ∈ dirs, Path.Plain c
  visible : ∀ c ∈ dirs, isHidden c = false
  plain : Path.Plain source
  name : j.name = Path.stem source
  relative : j.relative = relativePath (dirs ++ [source])
  artifact : j.artifact = relativePath (dirs ++ [artifactName j.name])

section Search

variable {d : Disk} {ignores : Path → Bool} {path : Path} {above : List Bytes} {c : Bytes} {j : Job}

theorem sourced_of_jobOf (habove : ∀ b ∈ above, Path.Plain b) (hvisible : ∀ b ∈ above, isHidden b = false)
    (hc : Path.Plain c) (h : jobOf path (above ++ [c]) = some j) : Sourced above c j := by
  have hpath : jobOf path (above ++ [c]) =
      (jobOf (Path.join [] (relativePath (above ++ [c]))) (above ++ [c])).map fun j => { j with path := path } := by
    unfold jobOf
    dsimp only
    split <;> rfl
  rw [hpath, jobOf_eq [] habove hc] at h
  split at h
  · cases h
    have hlast : (above ++ [c]).getLastD [] = c := List.getLastD_concat
    refine ⟨habove, hvisible, hc, congrArg Path.stem hlast, rfl, ?_⟩
    show relativePath ((above ++ [c]).dropLast ++ [_]) = _
    rw [List.dropLast_concat]
    rfl
  · cases h

theorem sourced_of_jobsBelow (htree : d.Proper) {budget : Nat} {found : List Job}
    (h : jobsBelow d ignores budget path above = .ok found) (hplain : ∀ b ∈ above, Path.Plain b)
    (hvisible : ∀ b ∈ above, isHidden b = false) : ∀ j ∈ found, ∃ dirs source, Sourced dirs source j := by
  induction budget generalizing path above found with
  | zero => cases h
  | succ budget ih =>
    rw [jobsBelow] at h
    obtain ⟨entries, hentries, h⟩ := bind_eq_ok_iff.1 h
    obtain ⟨lists, hlists, h⟩ := bind_eq_ok_iff.1 h
    cases h
    intro j hj
    obtain ⟨jobs, hjobs, hj⟩ := List.mem_flatten.1 hj
    obtain ⟨⟨c, n⟩, he, hvisit⟩ := (exists_of_mapM hlists).1 jobs hjobs
    have hc : Path.Plain c := by
      unfold Disk.readDir at hentries
      split at hentries
      · cases hentries
        exact (htree.fileName (htree.mem_list.1 he) c (by simp)).plain
      · cases hentries
      · cases hentries
    unfold visit at hvisit
    dsimp only at hvisit
    split at hvisit
    · cases hvisit
      cases hj
    · rename_i hshown
      simp only [Bool.or_eq_true, not_or, Bool.not_eq_true] at hshown
      cases n with
      | directory =>
        refine ih hvisit ?_ ?_ j hj
        · rw [List.forall_mem_append]
          exact ⟨hplain, List.forall_mem_singleton.2 hc⟩
        · rw [List.forall_mem_append]
          exact ⟨hvisible, List.forall_mem_singleton.2 hshown.1⟩
      | link => cases hvisit; cases hj
      | file =>
        cases hvisit
        exact ⟨above, c, sourced_of_jobOf hplain hvisible hc (Option.mem_toList.1 hj)⟩

/-- Whatever the root, a search makes its jobs of sources, and no two of them with one artifact. -/
theorem sourced_of_discover (htree : d.Proper) {root ignoreFile : Path} {jobs : List Job}
    (h : discover d root ignoreFile = .ok jobs) :
    (jobs.map Job.artifact).Nodup ∧ ∀ j ∈ jobs, ∃ dirs source, Sourced dirs source j := by
  unfold discover at h
  split at h
  · cases h
  · split at h
    · cases h
    · unfold shadersUnder at h
      split at h
      · cases h
      · split at h
        · cases h
        · rename_i found hfound
          dsimp only at h
          split at h
          · cases h
          · rename_i hclash
            cases h
            refine ⟨(clash?_eq_none_iff.1 hclash).1, fun j hj => ?_⟩
            exact sourced_of_jobsBelow htree hfound (by simp) (by simp) j ((sortBy_perm _).mem_iff.1 hj)
      · cases h
        simp
  · cases h

end Search

/-- A path that has to be a directory where another path stands for a file. -/
def Path.Above (p q : Path) : Prop := Path.components p <+: Path.components q ∧ p ≠ q

instance (p q : Path) : Decidable (Path.Above p q) :=
  inferInstanceAs (Decidable (Path.components p <+: Path.components q ∧ p ≠ q))

theorem components_relativePath {dirs : List Bytes} {c : Bytes} (hdirs : ∀ b ∈ dirs, Path.Plain b)
    (hc : Path.Plain c) : Path.components (relativePath (dirs ++ [c])) = dirs ++ [c] := by
  refine Bytes.split_join (by simp) fun b hb => ?_
  rcases List.mem_append.1 hb with hb | hb
  · exact (hdirs b hb).no_slash
  · rw [List.mem_singleton.1 hb]
    exact hc.no_slash

namespace Sourced

variable {dirs dirs' : List Bytes} {source source' : Bytes} {i j : Job}

def deposit (h : Sourced dirs source j) : Deposit where
  dirs := dirs
  base := artifactName j.name
  plain_dirs := h.plain_dirs
  visible := h.visible
  plain := by
    rw [h.name]
    exact plain_artifactName_stem h.plain
  ext := ⟨_, rfl⟩

theorem components_artifact (h : Sourced dirs source j) : Path.components j.artifact = h.deposit.below := by
  rw [h.artifact]
  exact components_relativePath h.plain_dirs h.deposit.plain

theorem components_relative (h : Sourced dirs source j) : Path.components j.relative = dirs ++ [source] := by
  rw [h.relative]
  exact components_relativePath h.plain_dirs h.plain

theorem artifact_eq_iff (hi : Sourced dirs source i) (hj : Sourced dirs' source' j) :
    i.artifact = j.artifact ↔ hi.deposit.below = hj.deposit.below := by
  rw [← hi.components_artifact, ← hj.components_artifact]
  refine ⟨congrArg Path.components, fun h => ?_⟩
  rw [hi.components_artifact, hj.components_artifact] at h
  exact hi.artifact.trans ((congrArg relativePath h).trans hj.artifact.symm)

/-- An artifact is above another exactly if the source of the other lies in a directory with its path. -/
theorem above_iff (hi : Sourced dirs source i) (hj : Sourced dirs' source' j) :
    Path.Above i.artifact j.artifact ↔ hi.deposit.below <+: dirs' := by
  rw [Path.Above, Ne, hi.artifact_eq_iff hj, hi.components_artifact, hj.components_artifact]
  constructor
  · rintro ⟨hle, hne⟩
    exact (List.prefix_concat_iff.1 hle).resolve_left hne
  · intro hle
    refine ⟨hle.trans (List.prefix_append _ _), fun heq => ?_⟩
    rw [heq] at hle
    exact hj.deposit.not_below_self hle

theorem path_eq (h : Sourced dirs source j) (out : Path) :
    (h.deposit.target out).path = Path.join (Path.join out (Path.dir j.artifact)) (artifactName j.name) := by
  have hartifact : j.artifact = artifactOf (dirs ++ [source]) := by
    rw [artifactOf, List.dropLast_concat, List.getLastD_concat, h.artifact, h.name]
  have hbelow : ∀ c ∈ dirs ++ [artifactName j.name], Path.Plain c :=
    List.forall_mem_append.2 ⟨h.plain_dirs, List.forall_mem_singleton.2 h.deposit.plain⟩
  rw [hartifact, h.name, join_dir_artifactOf out h.plain_dirs h.plain, ← hartifact, h.artifact, relativePath_eq (by simp),
    Path.join_ofComponents out hbelow, ← List.append_assoc]
  rfl

end Sourced

/-! ## Output directories -/

/-- An output directory that is there or can be made, at a place with no links below it. -/
structure Outlet (d : Disk) (out : Path) (place : Place) : Prop where
  tree : d.IsTree
  directory : (d.mkdirAll (Path.clean out)).1.find true (Path.clean out) = .ok (.node place .directory)
  unlinked : ∀ below target, below ≠ [] → d.node? (place ++ below) ≠ some (.link target)

theorem Outlet.yard {d : Disk} {out : Path} {place : Place} (h : Outlet d out place) :
    ∃ y : Yard, y.out = out ∧ y.Stands d := by
  have hx : Path.Plain artifactExt := ⟨by decide, by decide, by decide, by decide⟩
  obtain ⟨k, hgrown⟩ := OutputPath.mkdirAll_grown (t := joined out hx) h.tree
  have hfind : (d.mkdirAll (joined out hx).dir).1.find true (joined out hx).dir = .ok (.node place .directory) :=
    h.directory
  obtain ⟨-, hleads⟩ := OutputPath.find_dir.1 hfind
  rw [OutputPath.start_of_grown h.tree hgrown] at hleads
  rcases OutputPath.ends_of_grown h.tree hgrown hleads with hroute | ⟨front, more, R, hlead, rfl, hpaved⟩
  · rw [lead_joined] at hroute
    refine ⟨⟨out, d.cwd, _, [], place, (List.append_nil _).symm, by simp⟩, rfl, h.tree, rfl, hroute, ?_, ?_⟩
    · rintro q ⟨hR, hne, hle⟩
      rw [List.append_nil] at hle
      exact absurd (hle.eq_of_length_le hR.length_le) hne
    · intro below target hbelow
      show d.node? (place ++ [] ++ below) ≠ _
      rw [List.append_nil]
      exact h.unlinked below target hbelow
  · rw [lead_joined] at hlead
    exact ⟨⟨out, d.cwd, front, more, R, hlead, hpaved.names⟩, rfl, h.tree, rfl, hpaved.route,
      fun q hq => .inl (hpaved.node?_between h.tree hq), h.unlinked⟩

def Job.output (j : Job) (out : Path) : Path := Path.join (Path.join out (Path.dir j.artifact)) (artifactName j.name)

theorem apart_of_not_above {dirs dirs' : List Bytes} {source source' : Bytes} {i j : Job} (hi : Sourced dirs source i)
    (hj : Sourced dirs' source' j) (hne : i.artifact ≠ j.artifact) (hij : ¬ Path.Above i.artifact j.artifact)
    (hji : ¬ Path.Above j.artifact i.artifact) : hi.deposit.Apart hj.deposit where
  ne heq := hne ((hi.artifact_eq_iff hj).2 heq)
  not_above hle := hij ((hi.above_iff hj).2 hle)
  not_below hle := hji ((hj.above_iff hi).2 hle)

/-- The artifacts of the jobs that a search finds are distinct. One is above another exactly if the search came through
a directory with its path; if none is, then each job writes its artifact just when it would do so alone, in whatever
order all of them take their steps. -/
theorem artifacts_coexist {d : Disk} {root ignoreFile : Path} {jobs : List Job} (htree : d.Proper)
    (h : discover d root ignoreFile = .ok jobs) :
    (jobs.map Job.artifact).Nodup ∧
    (∀ i ∈ jobs, ∀ j ∈ jobs, Path.Above i.artifact j.artifact ↔
      Path.components i.artifact <+: (Path.components j.relative).dropLast) ∧
    ((∀ i ∈ jobs, ∀ j ∈ jobs, ¬ Path.Above i.artifact j.artifact) →
      ∀ (w : World) (out : Path) (place : Place), Outlet w.disk out place →
      ∀ (data : { j // j ∈ jobs } → Bytes) (b : Crew { j // j ∈ jobs } (Except CompileCause Unit)),
        Crew.Reaches ⟨w.disk, fun j => (writeWhole FileCalls.writing (j.1.output out) (data j)).run⟩ b →
        ∀ j r, b.task j = .done r →
          (r = .ok () ↔ ((writeWhole FileCalls.world (j.1.output out) (data j)).run.run w).1 = .ok ()) ∧
          (r = .ok () → b.disk.contents (j.1.output out) = .ok (data j))) := by
  obtain ⟨hnodup, hsourced⟩ := sourced_of_discover htree h
  refine ⟨hnodup, fun i hi j hj => ?_, fun hnone w out place houtlet data b hreach j r hj => ?_⟩
  · obtain ⟨dirs, source, hi⟩ := hsourced i hi
    obtain ⟨dirs', source', hj⟩ := hsourced j hj
    rw [hi.above_iff hj, hi.components_artifact, hj.components_relative, List.dropLast_concat]
  · choose dirs source hjob using fun j : { j // j ∈ jobs } => hsourced j.1 j.2
    obtain ⟨y, rfl, hstands⟩ := houtlet.yard
    have hpath : ∀ j : { j // j ∈ jobs }, j.1.output y.out = ((hjob j).deposit.target y.out).path :=
      fun j => ((hjob j).path_eq y.out).symm
    have hapart : ∀ i j : { j // j ∈ jobs }, i ≠ j → (hjob i).deposit.Apart (hjob j).deposit := by
      intro i j hne
      refine apart_of_not_above (hjob i) (hjob j) (fun heq => hne ?_) (hnone _ i.2 _ j.2) (hnone _ j.2 _ i.2)
      exact Subtype.ext (List.inj_on_of_nodup_map hnodup i.2 j.2 heq)
    simp only [run_writeWhole_writing, hpath] at hreach
    have hwritten := hstands.written_of_reaches hapart data hreach hj
    have halone := (hstands.safe_writeCalls (hjob j).deposit (data j)).perform (.refl y _)
    rw [perform_writeWhole, run_writeWhole_writing, hpath]
    refine ⟨hwritten.ok.trans halone.ok.symm, ?_⟩
    rintro rfl
    exact hwritten.contents

/-- A shader beside a directory with its name. -/
def pairShelf : Disk where
  nodes := [([utf8 "lib"], .directory), ([utf8 "lib", utf8 "a.hlsl"], .file "" 0), ([utf8 "lib", utf8 "a"], .directory),
    ([utf8 "lib", utf8 "a", utf8 "B.hlsl"], .file "" 0)]

def pairJobs : List Job := [shaderJob "lib" [utf8 "a.hlsl"], shaderJob "lib" [utf8 "a", utf8 "B.hlsl"]]

theorem artifacts_coexist_pair :
    pairShelf.Proper ∧ discover pairShelf "lib" "" = .ok pairJobs ∧ Outlet pairShelf "new/out" [utf8 "new", utf8 "out"] ∧
    ∃ b : Crew { j // j ∈ pairJobs } (Except CompileCause Unit),
      Crew.Reaches ⟨pairShelf, fun j => (writeWhole FileCalls.writing (j.1.output "new/out") j.1.relative).run⟩ b ∧
      ∀ j, b.task j = .done (.ok ()) ∧ b.disk.contents (j.1.output "new/out") = .ok j.1.relative := by
  have htree : pairShelf.Proper := .of_parents (by decide) (by decide) (by decide)
  have hfound : discover pairShelf "lib" "" = .ok pairJobs := by cbv
  have hnone : ∀ i ∈ pairJobs, ∀ j ∈ pairJobs, ¬ Path.Above i.artifact j.artifact := by decide
  have houtlet : Outlet pairShelf "new/out" [utf8 "new", utf8 "out"] := by
    refine ⟨htree.tree, by cbv, fun below target _ hlink => ?_⟩
    have hfiles : ∀ e ∈ pairShelf.nodes, e.2 ≠ .link target := by simp [pairShelf]
    exact hfiles _ (mem_nodes (by simp) hlink) rfl
  have halone : ∀ j ∈ pairJobs,
      ((writeWhole FileCalls.world (j.output "new/out") j.relative).run.run { disk := pairShelf }).1 = .ok () := by
    intro j hj
    simp only [pairJobs, List.mem_cons, List.not_mem_nil, or_false] at hj
    rcases hj with rfl | rfl <;> cbv
  refine ⟨htree, hfound, houtlet, ?_⟩
  obtain ⟨b, hreach, hdone⟩ := Crew.exists_done ⟨pairShelf, fun j : { j // j ∈ pairJobs } =>
    (writeWhole FileCalls.writing (j.1.output "new/out") j.1.relative).run⟩ pairJobs.attach
  refine ⟨b, hreach, fun j => ?_⟩
  obtain ⟨r, hr⟩ := hdone j (List.mem_attach _ j)
  obtain ⟨hok, hcontents⟩ := (artifacts_coexist htree hfound).2.2 hnone { disk := pairShelf } "new/out" _ houtlet
    (fun j => j.1.relative) b hreach j r hr
  obtain rfl := hok.2 (halone j.1 j.2)
  exact ⟨hr, hcontents rfl⟩

/-- A shader whose artifact has the path of a directory with another. -/
def stackedShelf : Disk where
  nodes := [([utf8 "a.hlsl"], .file "" 0), ([utf8 "a.bin"], .directory), ([utf8 "a.bin", utf8 "b.hlsl"], .file "" 0)]

/-- Each of the two artifacts can be written, but not after the other. -/
theorem artifacts_in_the_way :
    let written (w : World) (p : Path) := (writeWhole FileCalls.world p "code").run.run w
    let w : World := { disk := stackedShelf }
    discover stackedShelf "." "" =
      .ok [shaderJob "." [utf8 "a.bin", utf8 "b.hlsl"], shaderJob "." [utf8 "a.hlsl"]] ∧
    (shaderJob "." [utf8 "a.hlsl"]).artifact = utf8 "a.bin" ∧
    (shaderJob "." [utf8 "a.bin", utf8 "b.hlsl"]).artifact = utf8 "a.bin/b.bin" ∧
    Path.Above "a.bin" "a.bin/b.bin" ∧
    (written w "out/a.bin").1 = .ok () ∧ (written w "out/a.bin/b.bin").1 = .ok () ∧
    (written (written w "out/a.bin").2 "out/a.bin/b.bin").1 =
      .error (.outputDirectory ⟨"mkdir", "out/a.bin", .notDirectory⟩) ∧
    (written (written w "out/a.bin/b.bin").2 "out/a.bin").1 =
      .error (.outputWrite ⟨"rename", "out/.a.bin.1000000000.tmp out/a.bin", .exists⟩) :=
  ⟨by cbv, by cbv, by cbv, by decide, by cbv, by cbv, by cbv, by cbv⟩

end ShaderForge
