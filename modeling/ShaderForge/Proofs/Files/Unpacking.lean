import ShaderForge.Proofs.Files.Replacement

/-!
# ShaderForge.Proofs.Files.Unpacking

Files that are written to an empty directory.

* `Disk.find_join`  — what a name in a directory leads to.
* `Disk.store_join` — a file under a free name of a directory.
* `Disk.Unpacked`   — a tree with some files more in a directory, and nothing else.
-/

namespace ShaderForge

open Bytes (slash)

theorem Bytes.mem_join {sep : UInt8} {cs : List Bytes} {b : UInt8} (h : b ∈ join [sep] cs) :
    b = sep ∨ ∃ c ∈ cs, b ∈ c := by
  induction cs with
  | nil => cases h
  | cons c cs ih =>
    cases cs with
    | nil => exact .inr ⟨c, by simp, h⟩
    | cons c' cs =>
      rw [join, List.mem_append, List.mem_append, List.mem_singleton] at h
      rcases h with (h | h) | h
      · exact .inr ⟨c, by simp, h⟩
      · exact .inl h
      · obtain hsep | ⟨e, he, hb⟩ := ih h
        · exact .inl hsep
        · exact .inr ⟨e, List.mem_cons_of_mem _ he, hb⟩

namespace OutputPath

variable {t : OutputPath}

/-- An octet of the path stands in the directory or in the name, or it is a slash. -/
theorem mem_path {b : UInt8} (h : b ∈ t.path) : b = slash ∨ b ∈ t.dir ∨ b ∈ t.base := by
  have hrest : b = slash ∨ b ∈ Bytes.join [slash] (t.above ++ [t.base]) := by
    rw [path, Path.ofComponents] at h
    cases hrooted : t.rooted <;> simp [hrooted] at h
    · exact .inr h
    · exact h
  obtain hslash | hjoin := hrest
  · exact .inl hslash
  obtain hslash | ⟨c, hc, hb⟩ := Bytes.mem_join hjoin
  · exact .inl hslash
  rcases List.mem_append.1 hc with habove | hbase
  · have hcomponents : c ∈ Path.components t.dir := by
      rw [t.components_dir (List.ne_nil_of_mem habove), lead, List.take_length]
      exact List.mem_append_right _ habove
    exact .inr (.inl (Bytes.subset_of_mem_split hcomponents hb))
  · rw [List.mem_singleton.1 hbase] at hb
    exact .inr (.inr hb)

end OutputPath

namespace Disk

variable {d d' d'' : Disk} {dir : Path} {P : Place} {x content : Bytes}

structure FileName (x : Bytes) : Prop where
  plain : Path.Plain x
  short : x.length ≤ maxName
  no_nul : 0 ∉ x

/-- A name joined to the path of a directory leads to what the name stands for there. -/
theorem find_join (hdir : d.find true (Path.clean dir) = .ok (.node P .directory)) (hx : FileName x)
    (hroom : (Path.join dir x).length < maxPath) {f : Found} (hlast : ∀ links, d.Leads true links P [x] f) :
    d.find true (Path.join dir x) = .ok f := by
  obtain ⟨out, hpath, hbase, hclean⟩ := exists_outputPath_clean dir hx.plain
  rw [← hclean] at hdir
  obtain ⟨hadmissible, hopens⟩ := out.find_dir.1 hdir
  have hnul : ∀ {p : Path}, p.contains [0] = false ↔ (0 : UInt8) ∉ p := by
    intro p
    rw [← Bool.not_eq_true, Bytes.contains_singleton]
  rw [← hpath, out.find_path, hbase]
  refine ⟨⟨hnul.2 fun hmem => ?_, fun hnil => ?_, hpath ▸ hroom⟩, ?_⟩
  · obtain hslash | hindir | hinbase := OutputPath.mem_path hmem
    · exact absurd hslash (by decide)
    · exact hnul.1 hadmissible.no_nul hindir
    · exact hx.no_nul (hbase ▸ hinbase)
  · have hcomponents := out.components_path
    rw [hnil, hbase, show Path.components [] = [[]] by decide] at hcomponents
    have hend := congrArg List.getLast? hcomponents
    rw [List.getLast?_concat] at hend
    exact hx.plain.ne_nil (Option.some.inj hend).symm
  · obtain ⟨links, happend⟩ := hopens.append
    exact happend true [x] _ (by simp) (hlast links)

/-- A file is written under a free name of a directory, which is found as before. -/
theorem store_join (hdir : d.find true (Path.clean dir) = .ok (.node P .directory)) (hx : FileName x)
    (hroom : (Path.join dir x).length < maxPath) (hfree : d.node? (P ++ [x]) = none) (content : Bytes) :
    d.store (Path.join dir x) content = .ok (d.putFile (P ++ [x]) content) ∧
      (d.putFile (P ++ [x]) content).find true (Path.clean dir) = .ok (.node P .directory) := by
  have hopen : d.node? P = some .directory := node?_of_find hdir
  have hfind : d.find true (Path.join dir x) = .ok (.vacant (P ++ [x]) false) :=
    find_join hdir hx hroom fun _ => .vacant hopen (hx.plain.names hx.short) hfree (by simp)
  have hplace : P ++ [x] ≠ [] := by simp
  refine ⟨by rw [store, hfind], ?_⟩
  obtain ⟨out, -, -, hclean⟩ := exists_outputPath_clean dir hx.plain
  rw [← hclean] at hdir ⊢
  obtain ⟨hadmissible, hopens⟩ := out.find_dir.1 hdir
  refine out.find_dir.2 ⟨hadmissible, ?_⟩
  have hadds := adds_putFile (d := d) hplace content
  rw [OutputPath.start_of_cwd hadds.cwd]
  refine hadds.leads ?_ (fun target => ?_) hopens <;> rw [hfree] <;> simp

/-- The tree with some files more in the directory, and nothing else changed. -/
structure Unpacked (P : Place) (files : List (Bytes × Bytes)) (d d' : Disk) : Prop where
  node : ∀ f ∈ files, ∃ time, d'.node? (P ++ [f.1]) = some (.file f.2 time)
  others : ∀ q, (∀ f ∈ files, q ≠ P ++ [f.1]) → d'.node? q = d.node? q

theorem Unpacked.refl (P : Place) (d : Disk) : Unpacked P [] d d := ⟨by simp, fun _ _ => rfl⟩

theorem Unpacked.of_putFile {files : List (Bytes × Bytes)} (h : Unpacked P files (d.putFile (P ++ [x]) content) d')
    (hx : x ∉ files.map Prod.fst) : Unpacked P ((x, content) :: files) d d' := by
  have hplace : P ++ [x] ≠ [] := by simp
  have hadds := adds_putFile (d := d) hplace content
  have hplaces : ∀ f ∈ files, P ++ [x] ≠ P ++ [f.1] := by
    intro f hf heq
    have hname : x = f.1 := by simpa using heq
    exact hx (hname ▸ List.mem_map_of_mem hf)
  refine ⟨fun f hf => ?_, fun q hq => ?_⟩
  · rcases List.mem_cons.1 hf with rfl | hf
    · exact ⟨_, (h.others _ hplaces).trans hadds.self⟩
    · exact h.node f hf
  · rw [h.others q fun f hf => hq f (List.mem_cons_of_mem _ hf)]
    exact hadds.of_ne (hq _ List.mem_cons_self)

end Disk

end ShaderForge
