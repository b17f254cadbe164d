import ShaderForge.Pipeline.Output
import ShaderForge.Proofs.Files.Directories

/-!
# ShaderForge.Proofs.Files.Replacement

A fresh file beside another, which is then put in its stead.

* `Disk.Adds`  — a tree with one node more, or another one at its place.
* `Site`       — a directory with a free name for the fresh file.
* `site_of_createTemp` — how the fresh file comes about.
* `Site.store`, `Site.rename`, `Site.remove`, `Site.remove_replaced` — what becomes of it.
* `OutputPath.held_of_opens`, `Replaced.delivered` — what the path shows meanwhile, and in the end.
-/

namespace ShaderForge

namespace Disk

variable {d τ τ' : Disk} {place : Place} {n n' : Node}

/-- The tree with a node put at a place. -/
structure Adds (d : Disk) (place : Place) (n : Node) (τ : Disk) : Prop where
  node : ∀ p, τ.node? p = if p = place then some n else d.node? p
  cwd : τ.cwd = d.cwd

theorem Adds.self (h : Adds d place n τ) : τ.node? place = some n := (h.node place).trans (if_pos rfl)

theorem Adds.of_ne (h : Adds d place n τ) {p : Place} (hp : p ≠ place) : τ.node? p = d.node? p :=
  (h.node p).trans (if_neg hp)

theorem adds_putFile (hplace : place ≠ []) (content : Bytes) :
    Adds d place (.file content d.clock) (d.putFile place content) :=
  ⟨node?_putFile d hplace content, cwd_put d _ _⟩

theorem Adds.putFile (h : Adds d place n τ) (hplace : place ≠ []) (content : Bytes) :
    Adds d place (.file content τ.clock) (τ.putFile place content) := by
  refine ⟨fun p => ?_, (cwd_put τ _ _).trans h.cwd⟩
  rw [node?_putFile τ hplace]
  split
  · rfl
  · rename_i hp
    exact h.of_ne hp

/-- A walk to a directory along directories and links that stand in both trees. -/
theorem Adds.leads (h : Adds d place n τ) {links : Nat} {s P : Place} {rest : List Bytes}
    (hold : d.node? place ≠ some .directory) (hlink : ∀ target, d.node? place ≠ some (.link target))
    (hl : d.Leads true links s rest (.node P .directory)) : τ.Leads true links s rest (.node P .directory) := by
  have hdirs : ∀ p, d.node? p = some .directory → τ.node? p = some .directory := by
    intro p hp
    rw [h.of_ne, hp]
    rintro rfl
    exact hold hp
  refine hl.keeps hdirs (fun p target hp => ?_) (hdirs P hl.node?_place) fun _ => Iff.rfl
  rw [h.of_ne, hp]
  rintro rfl
  exact hlink target hp

theorem Adds.leads_back {content : Bytes} {time : Int} (h : Adds d place (.file content time) τ) {links : Nat}
    {s P : Place} {rest : List Bytes} (hl : τ.Leads true links s rest (.node P .directory)) :
    d.Leads true links s rest (.node P .directory) := by
  have hother : ∀ p m, τ.node? p = some m → (∀ c t, m ≠ .file c t) → d.node? p = some m := by
    intro p m hp hm
    rw [← hp, h.of_ne]
    rintro rfl
    rw [h.self] at hp
    cases hp
    exact hm _ _ rfl
  exact hl.keeps (fun p hp => hother p _ hp (by simp)) (fun p target hp => hother p _ hp (by simp))
    (hother P _ hl.node?_place (by simp)) fun _ => Iff.rfl

theorem leads_last_iff {links : Nat} {P Q : Place} {c : Bytes} (hc : Path.Plain c) :
    d.Leads false links P [c] (.node Q n) ↔
      d.node? P = some .directory ∧ Names c ∧ Q = P ++ [c] ∧ d.node? (P ++ [c]) = some n := by
  constructor
  · intro h
    cases h with
    | stay _ hc' _ => exact absurd hc' (not_or.2 ⟨hc.ne_nil, hc.ne_dot⟩)
    | up => exact absurd rfl hc.ne_dotDot
    | down hdir hnames hn _ h =>
      cases h with
      | here hn' => exact ⟨hdir, hnames, rfl, hn'⟩
    | jump _ _ _ hpass _ => simp at hpass
    | link hdir hnames hn _ => exact ⟨hdir, hnames, rfl, hn⟩
  · rintro ⟨hdir, hnames, rfl, hn⟩
    by_cases hlink : ∃ target, n = .link target
    · obtain ⟨target, rfl⟩ := hlink
      exact .link hdir hnames hn rfl
    · exact .down hdir hnames hn (fun target ht => hlink ⟨target, ht⟩) (.here hn)

theorem Leads.place_last {links : Nat} {P : Place} {c : Bytes} {f : Found} (hc : Path.Plain c)
    (h : d.Leads false links P [c] f) : f.place = P ++ [c] := by
  cases f with
  | node Q m => exact ((leads_last_iff hc).1 h).2.2.1
  | vacant Q asDirectory =>
    cases h with
    | stay _ _ h => cases h
    | up _ h => cases h
    | down _ _ _ _ h => cases h
    | jump _ _ _ hpass _ => simp at hpass
    | vacant => rfl

end Disk

open Disk

/-! ## The path of the file -/

namespace OutputPath

variable {out : OutputPath} {d τ : Disk} {P Q : Place}

/-- The directory is there. -/
def Opens (out : OutputPath) (d : Disk) (P : Place) : Prop :=
  d.Leads true maxLinks (out.start d) (out.lead out.above.length) (.node P .directory)

theorem start_of_cwd (h : τ.cwd = d.cwd) : out.start τ = out.start d := by rw [start, start, h]

theorem Opens.find {x : Bytes} (h : out.Opens d P) (hx : Path.Plain x) {f : Found}
    (hl : d.Leads false maxLinks (out.start d) (out.lead out.above.length ++ [x]) f) :
    ∃ links, d.Leads false links P [x] f := by
  obtain ⟨P', links, hroute, hlast⟩ := hl.split ⟨x, by simp, hx.ne_nil⟩
  cases hroute.unique h
  exact ⟨links, hlast⟩

theorem Opens.node? (h : out.Opens d P) : d.node? P = some .directory := h.node?_place

theorem Opens.leads_iff {x : Bytes} (h : out.Opens d P) (hx : Path.Plain x) {n : Node} :
    d.Leads false maxLinks (out.start d) (out.lead out.above.length ++ [x]) (.node Q n) ↔
      Names x ∧ Q = P ++ [x] ∧ d.node? (P ++ [x]) = some n := by
  constructor
  · intro hl
    obtain ⟨links, hlast⟩ := h.find hx hl
    exact ((leads_last_iff hx).1 hlast).2
  · rintro hlast
    obtain ⟨links, happend⟩ := Leads.append h
    exact happend false _ _ (by simp) ((leads_last_iff hx).2 ⟨h.node?, hlast⟩)

theorem held_of_opens (h : out.Opens d P) {n : Node} : d.held out.path = some n ↔
    Admissible out.path ∧ Names out.base ∧ d.node? (P ++ [out.base]) = some n := by
  simp only [held_eq_some_iff, find_path, h.leads_iff out.plain]
  constructor
  · rintro ⟨Q, hadm, hnames, -, hn⟩
    exact ⟨hadm, hnames, hn⟩
  · rintro ⟨hadm, hnames, hn⟩
    exact ⟨_, hadm, hnames, rfl, hn⟩

theorem place_of_find (h : out.Opens d P) {f : Found} (hf : d.find false out.path = .ok f) :
    f.place = P ++ [out.base] := by
  obtain ⟨links, hlast⟩ := h.find out.plain (find_path.1 hf).2
  exact hlast.place_last out.plain

end OutputPath

/-- What stood at the path has made way for a file with the data. -/
structure Replaced (out : OutputPath) (d : Disk) (P : Place) (data : Bytes) (τ : Disk) : Prop where
  opens : out.Opens d P
  admissible : Admissible out.path
  names : Names out.base
  not_directory : d.node? (P ++ [out.base]) ≠ some .directory
  adds : ∃ time, Adds d (P ++ [out.base]) (.file data time) τ

/-- The path has come to hold the data: its place does, and where no link stood there the path leads there still. -/
structure Disk.Delivered (d τ : Disk) (path : Path) (place : Place) (data : Bytes) : Prop where
  node : ∃ time, τ.node? place = some (.file data time)
  held : (∀ target, d.node? place ≠ some (.link target)) → ∃ time, τ.held path = some (.file data time)

namespace Replaced

variable {out : OutputPath} {d τ : Disk} {P P' : Place} {data : Bytes}

theorem delivered {d₀ : Disk} (htree : d₀.IsTree) {s : Place} {lead : List Bytes} (hgrown : Grown d₀ s lead d)
    (h : Replaced out d P data τ) : d₀.Delivered τ out.path (P ++ [out.base]) data := by
  obtain ⟨time, ha⟩ := h.adds
  refine ⟨⟨time, ha.self⟩, fun hlink => ⟨time, ?_⟩⟩
  have hopens : out.Opens τ P := by
    rw [OutputPath.Opens, OutputPath.start_of_cwd ha.cwd]
    refine ha.leads h.not_directory (fun target htarget => ?_) h.opens
    exact hlink target ((hgrown.quiet htree).links _ _ htarget)
  exact (OutputPath.held_of_opens hopens).2 ⟨h.admissible, h.names, ha.self⟩

theorem eq_of_opens (h : Replaced out d P data τ) (h' : out.Opens τ P') : P' = P := by
  obtain ⟨time, ha⟩ := h.adds
  rw [OutputPath.Opens, OutputPath.start_of_cwd ha.cwd] at h'
  cases (ha.leads_back h').unique h.opens
  rfl

theorem place_of_find (h : Replaced out d P data τ) {f : Found} (hf : τ.find false out.path = .ok f) :
    f.place = P ++ [out.base] := by
  obtain ⟨P', links, hroute, -⟩ := (OutputPath.find_path.1 hf).2.split ⟨out.base, by simp, out.plain.ne_nil⟩
  obtain rfl := h.eq_of_opens hroute
  exact OutputPath.place_of_find hroute hf

end Replaced

/-! ## The fresh file -/

/-- A directory with a free name for a fresh file. -/
structure Site (out : OutputPath) (d : Disk) (P : Place) (x : Bytes) : Prop where
  tree : d.IsTree
  opens : out.Opens d P
  plain : Path.Plain x
  names : Names x
  admissible : Admissible (inside out.dir x)
  vacant : d.node? (P ++ [x]) = none
  ne_base : x ≠ out.base

namespace Site

variable {out : OutputPath} {d τ τ' : Disk} {P : Place} {x content data : Bytes} {time : Int}

theorem opens_of_adds (h : Site out d P x) {n : Node} (ha : Adds d (P ++ [x]) n τ) : out.Opens τ P := by
  rw [OutputPath.Opens, OutputPath.start_of_cwd ha.cwd]
  exact ha.leads (by simp [h.vacant]) (by simp [h.vacant]) h.opens

theorem find_file (h : Site out d P x) (ha : Adds d (P ++ [x]) (.file content time) τ) (follow : Bool) :
    τ.find follow (inside out.dir x) = .ok (.node (P ++ [x]) (.file content time)) := by
  have hleads := ((h.opens_of_adds ha).leads_iff (Q := P ++ [x]) h.plain).2 ⟨h.names, rfl, ha.self⟩
  refine (OutputPath.find_inside h.plain.no_slash).2 ⟨h.admissible, ?_⟩
  cases follow with
  | false => exact hleads
  | true => exact hleads.followed (by simp) rfl

theorem store (h : Site out d P x) (ha : Adds d (P ++ [x]) (.file content time) τ) (data : Bytes) :
    τ.store (inside out.dir x) data = .ok (τ.putFile (P ++ [x]) data) := by
  simp only [Disk.store, h.find_file ha true]

theorem remove (h : Site out d P x) (ha : Adds d (P ++ [x]) (.file content time) τ)
    (hremoved : τ.remove (inside out.dir x) = .ok τ') : Same d τ' := by
  simp only [Disk.remove, inspect, h.find_file ha false] at hremoved
  cases hremoved
  refine ⟨fun p => ?_, ha.cwd⟩
  rw [node?_erase τ (by simp)]
  split
  · rename_i hbelow
    exact (h.tree.node?_of_prefix h.vacant hbelow).symm
  · rename_i hout
    refine ha.of_ne ?_
    rintro rfl
    exact hout List.prefix_rfl

theorem removes (h : Site out d P x) (ha : Adds d (P ++ [x]) (.file content time) τ) :
    ∃ τ', τ.remove (inside out.dir x) = .ok τ' := by
  simp only [Disk.remove, inspect, h.find_file ha false]
  exact ⟨_, rfl⟩

theorem rename (h : Site out d P x) (ha : Adds d (P ++ [x]) (.file data time) τ)
    (hrenamed : τ.rename (inside out.dir x) out.path = .ok τ') : Replaced out d P data τ' := by
  have hopens := h.opens_of_adds ha
  have hne : P ++ [out.base] ≠ P ++ [x] := fun heq => h.ne_base (by simpa using heq.symm)
  have hmoved : ∀ f, τ.find false out.path = .ok f → f.node? ≠ some .directory →
      Replaced out d P data ((τ.erase (P ++ [x])).put f.place (.file data time)) := by
    intro f hf hfile
    obtain ⟨hadm, hleads⟩ := OutputPath.find_path.1 hf
    obtain ⟨links, hlast⟩ := hopens.find out.plain hleads
    have hplace := OutputPath.place_of_find hopens hf
    have hnode := node?_of_find hf
    rw [hplace, ha.of_ne hne] at hnode
    refine ⟨h.opens, hadm, hlast.names out.plain, by rwa [hnode], time, fun p => ?_, (cwd_put _ _ _).trans ha.cwd⟩
    rw [hplace, node?_put _ (by simp), node?_erase τ (by simp)]
    split
    · rfl
    · split
      · rename_i hbelow
        exact (h.tree.node?_of_prefix h.vacant hbelow).symm
      · rename_i hout
        refine ha.of_ne ?_
        rintro rfl
        exact hout List.prefix_rfl
  simp only [Disk.rename, inspect, h.find_file ha false] at hrenamed
  split at hrenamed
  · cases hrenamed
  · cases hrenamed
  · rename_i hdir heq hf
    cases heq
    cases hrenamed
    exact hmoved _ hf fun hn => hdir (by cases hn; rfl)
  · rename_i heq hf
    cases heq
    cases hrenamed
    exact hmoved _ hf (by simp [Found.node?])
  · cases hrenamed

theorem remove_replaced (h : Site out d P x) (hr : Replaced out d P data τ) :
    τ.remove (inside out.dir x) ≠ .ok τ' := by
  intro hremoved
  have hfound : ∃ Q n, τ.find false (inside out.dir x) = .ok (.node Q n) := by
    unfold Disk.remove at hremoved
    split at hremoved
    · rename_i hn
      exact ⟨_, _, find_of_inspect hn⟩
    · rename_i hn
      exact ⟨_, _, find_of_inspect hn⟩
    · cases hremoved
  obtain ⟨Q, n, hf⟩ := hfound
  obtain ⟨-, hleads⟩ := (OutputPath.find_inside h.plain.no_slash).1 hf
  obtain ⟨P', links, hroute, -⟩ := hleads.split ⟨x, by simp, h.plain.ne_nil⟩
  obtain rfl := hr.eq_of_opens hroute
  obtain ⟨-, -, hn⟩ := (OutputPath.Opens.leads_iff hroute h.plain).1 hleads
  obtain ⟨time, ha⟩ := hr.adds
  rw [ha.of_ne (by simpa using h.ne_base), h.vacant] at hn
  cases hn

end Site

/-! ## A fresh name -/

theorem length_le_freshName (pattern : Bytes) (n : Nat) : pattern.length ≤ (freshName pattern n).length := by
  have hnumeral := List.length_pos_iff.2 (Bytes.ofNat_ne_nil n)
  have hlength := length_freshName pattern n
  omega

theorem createTemp_eq_ok {d d' : Disk} {dir temp : Path} {pattern : Bytes}
    (h : d.createTemp dir pattern = .ok (temp, d')) :
    Bytes.slash ∉ pattern ∧ ∃ n, temp = inside dir (freshName pattern n) ∧ d.create temp = .ok d' := by
  unfold createTemp at h
  split at h
  · cases h
  rename_i hslash
  obtain ⟨n, -, htemp, hmade, -⟩ := tryNumerals_eq_ok h
  exact ⟨fun hmem => hslash (Bytes.contains_singleton.2 hmem), n, htemp, hmade⟩

theorem create_eq_ok {d d' : Disk} {p : Path} (h : d.create p = .ok d') :
    ∃ q, d.find false p = .ok (.vacant q false) ∧ d' = d.putFile q [] := by
  unfold create at h
  split at h
  · rename_i q hf
    cases h
    exact ⟨q, hf, rfl⟩
  · cases h
  · cases h
  · cases h

theorem site_of_createTemp {out : OutputPath} {d d' : Disk} {P : Place} {temp : Path} (htree : d.IsTree)
    (hopens : out.Opens d P) (h : d.createTemp out.dir (outputPattern out.path) = .ok (temp, d')) :
    ∃ x, Site out d P x ∧ temp = inside out.dir x ∧ ∃ time, Adds d (P ++ [x]) (.file [] time) d' := by
  obtain ⟨hslash, n, rfl, hmade⟩ := createTemp_eq_ok h
  obtain ⟨q, hf, rfl⟩ := create_eq_ok hmade
  have hplain := plain_freshName hslash n
  obtain ⟨hadm, hleads⟩ := (OutputPath.find_inside hplain.no_slash).1 hf
  obtain ⟨P', hroute, rfl, hnames, hvacant⟩ := hleads.vacant_concat hplain.ne_nil
  cases hroute.unique hopens
  refine ⟨_, ⟨htree, hopens, hplain, hnames, hadm, hvacant, ?_⟩, rfl, _, adds_putFile (by simp) []⟩
  intro heq
  have hlen := length_le_freshName (outputPattern out.path) n
  rw [heq, outputPattern, out.base_path] at hlen
  simp only [List.length_append] at hlen
  have hdot : (utf8 ".").length = 1 := by decide
  omega

end ShaderForge
