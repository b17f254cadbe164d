import ShaderForge.Proofs.Source.Substitution

/-!
# ShaderForge.Proofs.Source.Origins

The source map of a merged text: for each line of it, a line of one of the files that was merged.

* `Merged.Faithful`   — the map has one place for each line, and the text of that place stands in the line.
* `sourceMap_faithful` — the map of every merge, of a file or of a text given for it.
-/

namespace ShaderForge

variable {σ : Type}

/-- One place for each merged line. The place is a line of one of the files; no directive stands on it, and all
of it stands in the merged line. -/
structure Merged.Faithful (m : Merged) (files : List (Path × Bytes)) : Prop where
  size : m.map.size = (Bytes.lines m.text).length
  origin : ∀ (k : Nat) (merged : Bytes), 1 ≤ k → (Bytes.lines m.text)[k - 1]? = some merged →
    ∃ file number text line, m.map.lookup? k = some ⟨file, number⟩ ∧ (file, text) ∈ files ∧
      1 ≤ number ∧ number ≤ (Bytes.lines text).length ∧ (Bytes.lines text)[number - 1]? = some line ∧
      DirectiveFree line ∧ line <:+: merged

/-- Lines without line feeds are the lines of the text that they are joined to. -/
theorem lines_ofLines {ls : List MergedLine} (hne : ls ≠ []) (h : ∀ l ∈ ls, Bytes.lf ∉ l.text) :
    Bytes.lines (Merged.ofLines ls).text = ls.map MergedLine.text := by
  refine Bytes.split_join (by simpa using hne) fun c hc => ?_
  obtain ⟨l, hl, rfl⟩ := List.mem_map.1 hc
  exact h l hl

theorem faithful_ofLines {ls : List MergedLine} {files : List (Path × Bytes)} (hne : ls ≠ [])
    (h : ∀ l ∈ ls, Traced files l) : (Merged.ofLines ls).Faithful files := by
  have hlines := lines_ofLines hne fun l hl => (h l hl).oneLine
  refine ⟨by rw [hlines]; simp [Merged.ofLines, SourceMap.size], fun k merged hk hmerged => ?_⟩
  rw [hlines, List.getElem?_map, Option.map_eq_some_iff] at hmerged
  obtain ⟨l, hl, rfl⟩ := hmerged
  obtain ⟨text, line, hmem, hpos, hline, hfree, hinfix⟩ := (h l (List.mem_of_getElem? hl)).source
  have hlt := (List.getElem?_eq_some_iff.1 hline).1
  refine ⟨l.origin.file, l.origin.line, text, line, ?_, hmem, hpos, by omega, hline, hfree, hinfix⟩
  have hlookup : ¬ (k : Int) < 1 := by omega
  simp [SourceMap.lookup?, hlookup, Merged.ofLines, hl]

/-- However a merge comes to its text, the source map leads each of its lines back to a line of the root or of a
file that was read. -/
theorem sourceMap_faithful (host : Host (StateM σ)) (opts : IncludeOptions) (path : Path) :
    let file := Path.absolute opts.cwd path
    (∀ text s s' merged, (resolveText host opts path text).run.run s = (.ok merged, s') →
      ∃ files, Substituted host opts (Path.dir file) 1 s text s' merged.text files ∧
        merged.Faithful ((file, text) :: files)) ∧
    (∀ s s' merged, (resolve host opts path).run.run s = (.ok merged, s') →
      let root := Path.absolute opts.cwd file
      ∃ text s1 files, (host.read file).run s = (.ok text, s1) ∧
        Substituted host opts (Path.dir root) 1 s1 text s' merged.text files ∧
        merged.Faithful ((root, text) :: files) ∧
        (Path.isAbsolute opts.cwd = true → root = file)) := by
  intro file
  constructor
  · intro text s s' merged h
    obtain ⟨ls, files, rfl, hmerges⟩ := resolveText_merges h
    exact ⟨files, hmerges.substituted, faithful_ofLines hmerges.ne_nil hmerges.traced⟩
  · intro s s' merged h root
    unfold resolve at h
    obtain ⟨found, s1, hread, h⟩ := Merge.run_bind_ok h
    cases found with
    | error e => cases h
    | ok text =>
      obtain ⟨ls, files, rfl, hmerges⟩ := resolveText_merges h
      exact ⟨text, s1, files, Merge.run_lift_ok hread, hmerges.substituted,
        faithful_ofLines hmerges.ne_nil hmerges.traced, fun hcwd => Path.absolute_absolute hcwd path⟩

/-- A line with two directives: the places of the first file's last line and of the line itself give way to that of
the second file. -/
theorem sourceMap_faithful_spliced :
    let shelf : Shelf :=
      { read := fun p =>
          if p = "/r" then .ok "#include \"/two\"b#include \"/one\"c\nd" else if p = "/two" then .ok "1\n2"
          else if p = "/one" then .ok "3" else .error ⟨"open", p, .absent⟩
        present := fun _ => false }
    ∃ merged files, (resolve shelf.host { cwd := "/" } "/r").run.run () = (.ok merged, ()) ∧
      merged = ⟨"1\n2b3c\nd", ⟨[⟨"/two", 1⟩, ⟨"/one", 1⟩, ⟨"/r", 2⟩]⟩⟩ ∧
      merged.Faithful ((utf8 "/r", utf8 "#include \"/two\"b#include \"/one\"c\nd") :: files) := by
  intro shelf
  have hmerged : ((resolve shelf.host { cwd := "/" } "/r").run.run ()).1.toOption =
      some ⟨"1\n2b3c\nd", ⟨[⟨"/two", 1⟩, ⟨"/one", 1⟩, ⟨"/r", 2⟩]⟩⟩ := by decide +kernel
  cases hrun : (resolve shelf.host { cwd := "/" } "/r").run.run () with
  | mk r s =>
    rw [hrun] at hmerged
    cases r with
    | error e => cases hmerged
    | ok merged =>
      obtain ⟨text, s1, files, hread, _, hfaithful, _⟩ :=
        (sourceMap_faithful shelf.host { cwd := "/" } "/r").2 () s merged hrun
      have hfile : Path.absolute "/" "/r" = utf8 "/r" := by decide +kernel
      rw [show ({ cwd := "/" } : IncludeOptions).cwd = utf8 "/" from rfl, hfile] at hread hfaithful
      cases hread
      rw [hfile] at hfaithful
      exact ⟨merged, files, rfl, Option.some.inj hmerged, hfaithful⟩

end ShaderForge
