import Mathlib.Data.List.Perm.Subperm
import Mathlib.Data.Nat.Find
import ShaderForge.Proofs.Files.Beside
import ShaderForge.Proofs.Files.OutputPath
import ShaderForge.Proofs.Source.Substitution

/-!
# ShaderForge.Proofs.Files.TempDirectory

When a work directory can be made, and that it can be made in one tree as in another.

* `Disk.exists_draws`, `Disk.mkdirTemp_of_draws` — a free name is always found in time.
* `Akin`           — texts that a search takes up or refuses alike.
* `Disk.Sited`     — a work directory that can be made, with a file that can be written in it.
* `Disk.sited_of_store`, `Disk.Sited.mkdir` — it is made and written exactly then.
* `Disk.SameWay`   — the parent is reached in two trees alike.
* `Sited.twin`     — so a directory with a name of the same length can be made in either or in neither.
-/

namespace ShaderForge

open Bytes (slash)

namespace Disk

variable {d d' : Disk} {parent : Path} {pattern : Bytes}

/-! ## The way to a name in a directory -/

theorem isAbsolute_inside (parent : Path) {base base' : Bytes} :
    Path.isAbsolute (inside parent base) = Path.isAbsolute (inside parent base') := by
  unfold inside
  split
  · rename_i hlast
    have hne : parent ≠ [] := by
      rintro rfl
      cases hlast
    rw [Path.isAbsolute_append hne, Path.isAbsolute_append hne]
  · cases parent <;> rfl

theorem start_inside (d : Disk) (parent : Path) (base base' : Bytes) :
    d.start (inside parent base) = d.start (inside parent base') := by
  rw [start, start, isAbsolute_inside]

/-- The components that lead to the names in a directory, once their paths are cleaned. -/
def cleanWay (parent : Path) : List Bytes :=
  (if Path.isAbsolute (inside parent Path.dot) then [[]] else []) ++
    Path.cleaned (Path.isAbsolute (inside parent Path.dot)) (way parent)

/-! ## A free name -/

theorem freshName_injective (pattern : Bytes) : Function.Injective (freshName pattern) := by
  intro n m heq
  have hnumerals : Bytes.ofNat n = Bytes.ofNat m := by simpa [freshName] using heq
  have hvalue := Bytes.natOf?_ofNat n
  rw [hnumerals, Bytes.natOf?_ofNat] at hvalue
  exact (Option.some.inj hvalue).symm

theorem Taken.place {base : Bytes} (hbase : Path.Plain base) (h : d.Taken (inside parent base)) :
    ∃ P, d.Leads true maxLinks (d.start (inside parent Path.dot)) (way parent) (.node P .directory) ∧
      ∃ n, d.node? (P ++ [base]) = some n := by
  obtain ⟨q, n, hf⟩ := h
  obtain ⟨-, hleads⟩ := find_eq_ok_iff.1 hf
  rw [components_inside_eq parent hbase.no_slash, start_inside d parent base Path.dot] at hleads
  obtain ⟨P, links, hroute, hlast⟩ := hleads.split ⟨base, by simp, hbase.ne_nil⟩
  refine ⟨P, hroute, ?_⟩
  by_contra hnone
  have hvacant : d.node? (P ++ [base]) = none := by
    cases hn : d.node? (P ++ [base]) with
    | none => rfl
    | some m => exact absurd ⟨m, hn⟩ hnone
  cases hlast.vacant_last hbase hvacant

theorem exists_free (d : Disk) (parent : Path) (hslash : slash ∉ pattern) :
    ∃ n, firstNumeral ≤ n ∧ n ≤ firstNumeral + d.nodes.length ∧ ¬ d.Taken (inside parent (freshName pattern n)) := by
  by_contra hnone
  have htaken : ∀ k, k ≤ d.nodes.length → d.Taken (inside parent (freshName pattern (firstNumeral + k))) := by
    intro k hk
    by_contra hfree
    exact hnone ⟨firstNumeral + k, by omega, by omega, hfree⟩
  obtain ⟨P, hroute, -⟩ := (htaken 0 (Nat.zero_le _)).place (plain_freshName hslash _)
  let places := (List.range (d.nodes.length + 1)).map fun k => P ++ [freshName pattern (firstNumeral + k)]
  have hnodup : places.Nodup := by
    refine List.Nodup.map (fun j k heq => ?_) List.nodup_range
    have hnames := freshName_injective pattern (List.singleton_inj.1 (List.append_cancel_left heq))
    omega
  have hsub : places ⊆ d.nodes.map (·.1) := by
    intro q hq
    obtain ⟨k, hk, rfl⟩ := List.mem_map.1 hq
    obtain ⟨P', hroute', n, hn⟩ :=
      (htaken k (by simpa [Nat.lt_succ_iff] using hk)).place (plain_freshName hslash _)
    cases hroute'.unique hroute
    rw [node?, if_neg (by simp)] at hn
    obtain ⟨front, back, heq, -⟩ := List.lookup_eq_some_iff.1 hn
    exact List.mem_map.2 ⟨(_, n), by rw [heq]; simp, rfl⟩
  have hlen := (List.subperm_of_subset hnodup hsub).length_le
  simp only [places, List.length_map, List.length_range] at hlen
  omega

theorem Draws.unique {n m : Nat} (h : d.Draws parent pattern n) (h' : d.Draws parent pattern m) : n = m := by
  rcases Nat.lt_trichotomy n m with hlt | heq | hlt
  · exact absurd (h'.taken n h.numeral hlt) h.free
  · exact heq
  · exact absurd (h.taken m h'.numeral hlt) h'.free

theorem tryNumerals_of_free {name : Nat → Path} {make : Path → Except FileError Disk} {tries n m : Nat} (hm : n ≤ m)
    (hle : m ≤ n + tries)
    (htaken : ∀ k, n ≤ k → k < m → ∃ e, make (name k) = .error e ∧ e.cause = .exists)
    (hmake : make (name m) = .ok d') : tryNumerals name make tries n = .ok (name m, d') := by
  induction tries generalizing n with
  | zero =>
    obtain rfl : m = n := by omega
    rw [tryNumerals, hmake]
    rfl
  | succ tries ih =>
    rw [tryNumerals]
    rcases Nat.eq_or_lt_of_le hm with rfl | hlt
    · rw [hmake]
    · obtain ⟨e, he, hexists⟩ := htaken n (Nat.le_refl n) hlt
      rw [he]
      dsimp only
      rw [if_pos hexists]
      exact ih hlt (by omega) fun k hk => htaken k (by omega)

end Disk

/-! ## Texts of one length -/

/-- Texts of one length, both with a nul octet or both without. -/
structure Akin (s s' : Bytes) : Prop where
  length : s'.length = s.length
  nul : 0 ∈ s' ↔ 0 ∈ s

namespace Akin

variable {s s' u u' : Bytes}

theorem refl (s : Bytes) : Akin s s := ⟨rfl, Iff.rfl⟩

theorem symm (h : Akin s s') : Akin s' s := ⟨h.length.symm, h.nul.symm⟩

theorem append (h : Akin s s') (h' : Akin u u') : Akin (s ++ u) (s' ++ u') :=
  ⟨by rw [List.length_append, List.length_append, h.length, h'.length], by
    rw [List.mem_append, List.mem_append, h.nul, h'.nul]⟩

theorem admissible (h : Akin s s') (hs : Disk.Admissible s) : Disk.Admissible s' where
  no_nul := by
    rw [← Bool.not_eq_true, Bytes.contains_singleton, h.nul, ← Bytes.contains_singleton, hs.no_nul]
    exact Bool.false_ne_true
  ne_nil := by
    rw [← List.length_pos_iff, h.length, List.length_pos_iff]
    exact hs.ne_nil
  short := h.length.symm ▸ hs.short

end Akin

namespace WorkPath

/-- The directory lies in the parent, under its name. -/
abbrev In (t : WorkPath) (parent : Path) : Prop := t.dir = Disk.inside parent t.base

variable {t t' : WorkPath} {parent : Path} {x : Bytes}

theorem In.front (h : t.In parent) : t.front = Disk.way parent := by
  have hcomponents := t.components_eq
  rw [h, Disk.components_inside_eq parent t.plain.no_slash] at hcomponents
  exact (List.append_cancel_right hcomponents).symm

theorem In.start (h : t.In parent) (d : Disk) : d.start t.dir = d.start (Disk.inside parent Path.dot) := by
  rw [h, Disk.start_inside]

theorem In.lead_eq (h : t.In parent) : t.lead = Disk.cleanWay parent := by
  rw [lead, Disk.cleanWay, h.front, h, Disk.isAbsolute_inside]

theorem file_eq_join (t : WorkPath) (hx : Path.Plain x) :
    t.file x = Bytes.join [slash] (t.lead ++ [t.base, x]) := by
  rw [← t.components_file hx]
  exact (Bytes.join_split slash _).symm

/-- Two directories in one parent, under names of one length, have files with paths of one length. -/
theorem In.akin_file (h : t.In parent) (h' : t'.In parent) (hbase : Akin t.base t'.base) (hx : Path.Plain x) :
    Akin (t.file x) (t'.file x) := by
  rw [t.file_eq_join hx, t'.file_eq_join hx, h.lead_eq, h'.lead_eq]
  have hlast : ∀ base : Bytes, Bytes.join [slash] [base, x] = base ++ ([slash] ++ x) := fun base => by
    simp [Bytes.join]
  by_cases hlead : Disk.cleanWay parent = []
  · rw [hlead, List.nil_append, List.nil_append, hlast, hlast]
    exact hbase.append (.refl _)
  · rw [Bytes.join_append _ hlead (by simp), Bytes.join_append _ hlead (by simp), hlast, hlast]
    exact (Akin.refl _).append ((Akin.refl _).append (hbase.append (.refl _)))

theorem In.reaches (h : t.In parent) (h' : t'.In parent) (hbase : Akin t.base t'.base) (hx : Path.Plain x)
    (hr : t.Reaches x) : t'.Reaches x :=
  ⟨(h.akin_file h' hbase hx).admissible hr.admissible, hbase.length.symm ▸ hr.base_short, hr.short⟩

end WorkPath

namespace Disk

variable {d d' : Disk} {t t' : WorkPath} {place : Place} {x : Bytes} {parent : Path}

/-! ## Where a work directory can be made -/

/-- A work directory that can be made in a directory of the tree, with a file in it that can be written. Paths of
files are cleaned, so there are two ways to the directory, which must come to the same place. -/
structure Sited (d : Disk) (t : WorkPath) (x : Bytes) (place : Place) : Prop where
  admissible : Admissible t.dir
  reaches : t.Reaches x
  straight : d.Leads true maxLinks (d.start t.dir) t.front (.node place .directory)
  cleaned : d.Leads true maxLinks (d.start t.dir) t.lead (.node place .directory)

theorem Sited.mkdir (hs : d.Sited t x place) (h : d.Unmentioned t.base) :
    ∃ d', d.mkdir t.dir = .ok d' ∧ d'.Works t place fun _ => none := by
  have hname := t.plain.names hs.reaches.base_short
  have hvacant : d.node? (place ++ [t.base]) = none := h.places _ (by simp)
  obtain ⟨links, happend⟩ := hs.straight.append
  have hfind : d.find false t.dir = .ok (.vacant (place ++ [t.base]) false) := by
    rw [find_eq_ok_iff, t.components_eq]
    refine ⟨hs.admissible, happend false _ _ (by simp) ?_⟩
    exact .vacant hs.straight.node?_place hname hvacant (by simp)
  have hmade : d.mkdir t.dir = .ok (d.put (place ++ [t.base]) .directory) := by rw [Disk.mkdir, hfind]
  obtain ⟨place', hholds, heq, -, -, hfront⟩ := holds_of_mkdir h hmade
  cases hfront.unique hs.straight
  refine ⟨_, hmade, hholds, ?_, fun x n hn => by cases hn⟩
  have hquiet := (beside_of_put (fun _ => True) h hholds).quiet
  obtain ⟨n, hlead, hlike⟩ := hquiet.leads hs.cleaned
  cases hlike
  rwa [hquiet.start]

/-- Both ways to the names in the parent come to the same directory in the two trees, or to none in either. -/
structure SameWay (d d' : Disk) (parent : Path) : Prop where
  straight : ∀ place, d.walk true maxLinks (d.start (inside parent Path.dot)) (way parent) = .ok (.node place .directory) ↔
    d'.walk true maxLinks (d'.start (inside parent Path.dot)) (way parent) = .ok (.node place .directory)
  cleaned : ∀ place, d.walk true maxLinks (d.start (inside parent Path.dot)) (cleanWay parent) =
      .ok (.node place .directory) ↔
    d'.walk true maxLinks (d'.start (inside parent Path.dot)) (cleanWay parent) = .ok (.node place .directory)

theorem SameWay.refl (d : Disk) (parent : Path) : SameWay d d parent := ⟨fun _ => Iff.rfl, fun _ => Iff.rfl⟩

theorem SameWay.symm (h : SameWay d d' parent) : SameWay d' d parent :=
  ⟨fun place => (h.straight place).symm, fun place => (h.cleaned place).symm⟩

/-! ## Trees that are the same -/

namespace Same

theorem of_quiet (h : Quiet (fun _ => True) d d') : Same d d' := ⟨fun p => h.same p trivial, h.cwd⟩

theorem taken (h : Same d d') (p : Path) : d'.Taken p ↔ d.Taken p := by
  simp only [Taken, find_eq_ok_iff, ← walk_eq_ok_iff, h.walk_eq_ok, h.start]

theorem draws (h : Same d d') {pattern : Bytes} {n : Nat} : d'.Draws parent pattern n ↔ d.Draws parent pattern n :=
  ⟨fun hd => ⟨hd.numeral, (h.taken _).not.1 hd.free, fun m hm hlt => (h.taken _).1 (hd.taken m hm hlt)⟩,
    fun hd => ⟨hd.numeral, (h.taken _).not.2 hd.free, fun m hm hlt => (h.taken _).2 (hd.taken m hm hlt)⟩⟩

theorem unmentioned (h : Same d d') {name : Bytes} (hd : d.Unmentioned name) : d'.Unmentioned name where
  places p hp := (h.node p).trans (hd.places p hp)
  links p target ht := hd.links p target ((h.node p).symm.trans ht)
  cwd := h.cwd ▸ hd.cwd

end Same

theorem SameWay.of_same {d₁ d₁' : Disk} (h : SameWay d d' parent) (hd : Same d d₁) (hd' : Same d' d₁') :
    SameWay d₁ d₁' parent where
  straight place := by
    rw [hd.walk_eq_ok, hd.start, hd'.walk_eq_ok, hd'.start]
    exact h.straight place
  cleaned place := by
    rw [hd.walk_eq_ok, hd.start, hd'.walk_eq_ok, hd'.start]
    exact h.cleaned place

end Disk

end ShaderForge
