import Mathlib.Data.List.Induction
import ShaderForge.Proofs.Files.WorkDirectory

/-!
# ShaderForge.Proofs.Files.Tree

Disks on which everything stands in a directory.

* `Disk.IsTree`          — each node but the root has a directory above it.
* `Disk.IsTree.put`, `Disk.IsTree.erase` — the two changes that all others are made of.
* `Disk.IsTree.store`, `Disk.IsTree.mkdirTemp`, `Disk.IsTree.appendLog`, … — a disk stays a tree.
-/

namespace ShaderForge

namespace Disk

variable {d d' : Disk} {place q : Place} {n : Node}

/-- Whatever stands on the disk stands in a directory. -/
def IsTree (d : Disk) : Prop :=
  ∀ place c n, d.node? (place ++ [c]) = some n → d.node? place = some .directory

namespace IsTree

theorem node?_below (h : d.IsTree) (hplace : d.node? place ≠ some .directory) (rest : Place) (hrest : rest ≠ []) :
    d.node? (place ++ rest) = none := by
  induction rest using List.reverseRecOn with
  | nil => exact absurd rfl hrest
  | append_singleton rest c ih =>
    cases hn : d.node? (place ++ (rest ++ [c])) with
    | none => rfl
    | some n =>
      rw [← List.append_assoc] at hn
      have hdir := h _ _ _ hn
      rcases List.eq_nil_or_concat rest with rfl | ⟨_, _, hconcat⟩
      · rw [List.append_nil] at hdir
        exact absurd hdir hplace
      · rw [ih (by simp [hconcat])] at hdir
        cases hdir

theorem node?_of_prefix (h : d.IsTree) (hplace : d.node? place = none) (hq : place <+: q) : d.node? q = none := by
  obtain ⟨rest, rfl⟩ := hq
  by_cases hrest : rest = []
  · rw [hrest, List.append_nil, hplace]
  · exact h.node?_below (by simp [hplace]) rest hrest

theorem of_nodes (h : d.IsTree) (hnodes : d'.nodes = d.nodes) : d'.IsTree := by
  intro place c n hn
  unfold node? at hn ⊢
  rw [hnodes] at hn ⊢
  exact h place c n hn

theorem of_parents (h : ∀ e ∈ d.nodes, d.node? e.1.dropLast = some .directory) : d.IsTree := by
  intro place c n hn
  have hlookup := hn
  rw [node?, if_neg (by simp)] at hlookup
  obtain ⟨front, back, heq, -⟩ := List.lookup_eq_some_iff.1 hlookup
  have hparent := h (place ++ [c], n) (by simp [heq])
  rwa [List.dropLast_concat] at hparent

/-- A node put into a directory; a directory gives way to a directory only. -/
theorem put (h : d.IsTree) (c : Bytes) (hparent : d.node? place = some .directory)
    (hkeep : d.node? (place ++ [c]) = some .directory → n = .directory) : (d.put (place ++ [c]) n).IsTree := by
  intro q e m hm
  rw [node?_put d (by simp)] at hm ⊢
  by_cases hq : q = place ++ [c]
  · -- what stands below shows that the place was a directory
    have hm' : d.node? (q ++ [e]) = some m := by
      rw [if_neg] at hm
      · exact hm
      · intro heq
        have hlen := congrArg List.length heq
        simp [hq] at hlen
    rw [if_pos hq, hkeep (hq ▸ h q e m hm')]
  · rw [if_neg hq]
    split at hm
    · rename_i heq
      rw [(List.append_inj' heq rfl).1]
      exact hparent
    · exact h q e m hm

theorem putFile (h : d.IsTree) (c : Bytes) (content : Bytes) (hparent : d.node? place = some .directory)
    (hkeep : d.node? (place ++ [c]) ≠ some .directory) : (d.putFile (place ++ [c]) content).IsTree :=
  (h.put c hparent fun hdir => absurd hdir hkeep).of_nodes rfl

theorem erase (h : d.IsTree) (place : Place) : (d.erase place).IsTree := by
  by_cases hplace : place = []
  · -- with the root everything goes
    have hnodes : (d.erase place).nodes = [] := by simp [Disk.erase, hplace]
    exact of_nodes (d := {}) (fun q c m hm => by simp [node?] at hm) hnodes
  · intro q c m hm
    rw [node?_erase d hplace] at hm ⊢
    split at hm
    · cases hm
    · rename_i hout
      rw [if_neg fun hin => hout (hin.trans (List.prefix_append q [c]))]
      exact h q c m hm

end IsTree

/-! ## Where walks end -/

/-- A walk that ends at a free name has come to the directory that lacks it. -/
theorem Leads.parent {follow : Bool} {links : Nat} {start : Place} {rest : List Bytes} {asDirectory : Bool}
    (h : d.Leads follow links start rest (.vacant place asDirectory)) :
    ∃ q c, place = q ++ [c] ∧ Names c ∧ d.node? q = some .directory := by
  generalize hf : Found.vacant place asDirectory = f at h
  induction h with
  | here | link => cases hf
  | stay _ _ _ ih => exact ih hf
  | up _ _ ih => exact ih hf
  | down _ _ _ _ _ ih => exact ih hf
  | jump _ _ _ _ _ ih => exact ih hf
  | vacant hdir hc _ _ =>
    cases hf
    exact ⟨_, _, rfl, hc, hdir⟩

theorem parent_of_find {follow : Bool} {p : Path} {asDirectory : Bool}
    (h : d.find follow p = .ok (.vacant place asDirectory)) :
    ∃ q c, place = q ++ [c] ∧ Names c ∧ d.node? q = some .directory :=
  (find_eq_ok_iff.1 h).2.parent

/-- A place where no directory stands, as a name in the directory above it. -/
theorem IsTree.parent (h : d.IsTree) (hn : d.node? place = some n) (hdir : n ≠ .directory) :
    ∃ q c, place = q ++ [c] ∧ d.node? q = some .directory := by
  rcases List.eq_nil_or_concat place with rfl | ⟨q, c, hconcat⟩
  · rw [node?_nil] at hn
    cases hn
    exact absurd rfl hdir
  · rw [List.concat_eq_append] at hconcat
    subst hconcat
    exact ⟨q, c, rfl, h q c n hn⟩

namespace IsTree

theorem putFile_of_find (h : d.IsTree) {follow : Bool} {p : Path} {f : Found} (hf : d.find follow p = .ok f)
    (hfile : f.node? ≠ some .directory) (content : Bytes) : (d.putFile f.place content).IsTree := by
  have hnode := node?_of_find hf
  cases f with
  | node place n =>
    obtain ⟨q, c, rfl, hdir⟩ := h.parent hnode fun heq => hfile (by rw [heq]; rfl)
    exact h.putFile c content hdir (by rw [show d.node? (q ++ [c]) = some n from hnode]; exact hfile)
  | vacant place asDirectory =>
    obtain ⟨q, c, rfl, -, hdir⟩ := parent_of_find hf
    exact h.putFile c content hdir (by rw [show d.node? (q ++ [c]) = none from hnode]; exact hfile)

theorem store (h : d.IsTree) {p : Path} {content : Bytes} (hstored : d.store p content = .ok d') : d'.IsTree := by
  unfold Disk.store at hstored
  split at hstored
  · rename_i hf
    cases hstored
    exact h.putFile_of_find hf (by simp [Found.node?]) content
  · rename_i hf
    cases hstored
    exact h.putFile_of_find hf (by simp [Found.node?]) content
  · cases hstored
  · cases hstored

theorem append (h : d.IsTree) {p : Path} {content : Bytes} (hadded : d.append p content = .ok d') : d'.IsTree := by
  unfold Disk.append at hadded
  split at hadded
  · rename_i hf
    cases hadded
    exact h.putFile_of_find hf (by simp [Found.node?]) _
  · rename_i hf
    cases hadded
    exact h.putFile_of_find hf (by simp [Found.node?]) content
  · cases hadded
  · cases hadded

theorem mkdir (h : d.IsTree) {p : Path} (hmade : d.mkdir p = .ok d') : d'.IsTree := by
  obtain ⟨place, asDirectory, hf, rfl⟩ := mkdir_eq_ok hmade
  obtain ⟨q, c, rfl, -, hdir⟩ := parent_of_find hf
  exact h.put c hdir fun _ => rfl

theorem ensure (h : d.IsTree) (paths : List Path) : (ensure paths d).1.IsTree := by
  induction paths with
  | nil => exact h
  | cons p outer ih =>
    rw [Disk.ensure]
    split
    · exact h
    · exact h
    split
    · rename_i heq
      rwa [heq] at ih
    rename_i heq
    rw [heq] at ih
    split
    · rename_i hmade
      exact ih.mkdir hmade
    · split <;> exact ih

theorem appendLog (h : d.IsTree) (p : Path) (line : Bytes) : (appendLog p line d).IsTree := by
  unfold ShaderForge.appendLog
  split
  · split
    · rename_i hadded
      exact h.append hadded
    · exact h
  · have hall : (d.mkdirAll (Path.dir p)).1.IsTree := h.ensure _
    split
    · rename_i heq
      rw [heq] at hall
      split
      · rename_i hstored
        exact hall.store hstored
      · exact hall
    · rename_i heq
      rwa [heq] at hall

theorem remove (h : d.IsTree) {p : Path} (hremoved : d.remove p = .ok d') : d'.IsTree := by
  unfold Disk.remove at hremoved
  split at hremoved
  · split at hremoved
    · cases hremoved
      exact h.erase _
    · cases hremoved
  · cases hremoved
    exact h.erase _
  · cases hremoved

theorem removeAll (h : d.IsTree) (p : Path) : (d.removeAll p).IsTree := by
  unfold Disk.removeAll
  split
  · exact h.erase _
  · exact h

theorem mkdirTemp (h : d.IsTree) {parent dir : Path} {pattern : Bytes}
    (hmade : d.mkdirTemp parent pattern = .ok (dir, d')) : d'.IsTree := by
  obtain ⟨-, n, -, -, hmkdir⟩ := mkdirTemp_eq_ok hmade
  exact h.mkdir hmkdir

end IsTree

end Disk

end ShaderForge
