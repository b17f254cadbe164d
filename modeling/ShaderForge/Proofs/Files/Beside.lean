import ShaderForge.Proofs.Files.WorkDirectory

/-!
# ShaderForge.Proofs.Files.Beside

A work directory beside a file tree: what is done in it, and what is done meanwhile to the rest.

* `Disk.without`      — the tree without the places that have a name.
* `Disk.Leads.beside` — a walk without the name does not see these places.
* `Disk.Beside`       — a tree with a directory of a fresh name in it, otherwise changed quietly.
* `Disk.Beside.avoids` — a path that avoided places of the tree avoids them still, and the directory too.
* `Disk.Beside.quiet_removeAll` — once the directory is taken away, only the quiet changes are left.
-/

namespace ShaderForge

namespace Disk

variable {d d₀ d' : Disk} {name : Bytes} {away : Place → Prop}

theorem Quiet.mono {away' : Place → Prop} (h : Quiet away d d') (hsub : ∀ p, away' p → away p) :
    Quiet away' d d' :=
  { h with same := fun p hp => h.same p (hsub p hp) }

/-! ## The tree without a name -/

/-- The tree without the places that have the name. -/
def without (d : Disk) (name : Bytes) : Disk :=
  { d with nodes := d.nodes.filter fun e => !e.1.contains name }

theorem node?_without (d : Disk) (name : Bytes) (p : Place) :
    (d.without name).node? p = if name ∈ p then none else d.node? p := by
  by_cases hp : p = []
  · subst hp
    simp [node?]
  · have hfilter := lookup_filter_key d.nodes (fun q => !q.contains name) p
    rw [node?, node?, if_neg hp, if_neg hp]
    refine hfilter.trans ?_
    by_cases hmem : name ∈ p <;> simp [hmem]

/-- A walk that nowhere meets the name goes the same way in a tree with the same places without it. -/
theorem Leads.beside {follow : Bool} {links : Nat} {place : Place} {rest : List Bytes} {f : Found}
    (hnode : ∀ p, name ∉ p → d'.node? p = d.node? p)
    (hlinks : ∀ p target, d.node? p = some (.link target) → name ∉ Path.components target)
    (hplace : name ∉ place) (hrest : name ∉ rest) (h : d.Leads follow links place rest f) :
    d'.Leads follow links place rest f := by
  have hstep : ∀ {place : Place} {c : Bytes} {rest : List Bytes}, name ∉ place → name ∉ c :: rest →
      name ∉ place ++ [c] ∧ name ∉ rest := by
    intro place c rest hplace hrest
    simp only [List.mem_cons, not_or] at hrest
    simp [hplace, hrest]
  induction h with
  | here hn => exact .here ((hnode _ hplace).trans hn)
  | stay hdir hc _ ih => exact .stay ((hnode _ hplace).trans hdir) hc (ih hplace (hstep hplace hrest).2)
  | up hdir _ ih =>
    refine .up ((hnode _ hplace).trans hdir) (ih (fun hmem => hplace ?_) (hstep hplace hrest).2)
    exact List.dropLast_subset _ hmem
  | down hdir hc hn hlink _ ih =>
    obtain ⟨hplace', hrest'⟩ := hstep hplace hrest
    exact .down ((hnode _ hplace).trans hdir) hc ((hnode _ hplace').trans hn) hlink (ih hplace' hrest')
  | @jump links place c rest f target hdir hc hn hpass _ ih =>
    obtain ⟨hplace', hrest'⟩ := hstep hplace hrest
    refine .jump ((hnode _ hplace).trans hdir) hc ((hnode _ hplace').trans hn) hpass (ih ?_ ?_)
    · split
      · exact List.not_mem_nil
      · exact hplace
    · rw [List.mem_append, not_or]
      exact ⟨hlinks _ _ hn, hrest'⟩
  | link hdir hc hn hfollow =>
    exact .link ((hnode _ hplace).trans hdir) hc ((hnode _ (hstep hplace hrest).1).trans hn) hfollow
  | vacant hdir hc hn hempty =>
    exact .vacant ((hnode _ hplace).trans hdir) hc ((hnode _ (hstep hplace hrest).1).trans hn) hempty

/-! ## A directory beside the tree -/

/-- The tree `d₀`, with quiet changes away from some places, and beside it a directory with files in it under a name
that `d₀` does not mention. -/
structure Beside (away : Place → Prop) (t : WorkPath) (place : Place) (d₀ d : Disk) : Prop where
  unmentioned : d₀.Unmentioned t.base
  quiet : Quiet (fun p => away p ∧ t.base ∉ p) d₀ d
  holds : ∃ files, d.Holds t.base (fileTree (place ++ [t.base]) files)

variable {t : WorkPath} {place : Place}

theorem Beside.quiet_without (h : Beside away t place d₀ d) : Quiet away d₀ (d.without t.base) where
  same p hp := by
    rw [node?_without]
    split
    · rename_i hmem
      exact (h.unmentioned.places p hmem).symm
    · rename_i hmem
      exact h.quiet.same p ⟨hp, hmem⟩
  kept p n hn := by
    rw [node?_without, if_neg]
    · exact h.quiet.kept p n hn
    · intro hmem
      rw [h.unmentioned.places p hmem] at hn
      cases hn
  links p target ht := by
    rw [node?_without] at ht
    split at ht
    · cases ht
    · exact h.quiet.links p target ht
  cwd := h.quiet.cwd

theorem Beside.of_quiet (h : Beside away t place d₀ d) (hq : Quiet (fun p => away p ∨ t.base ∈ p) d d') :
    Beside away t place d₀ d' where
  unmentioned := h.unmentioned
  quiet := h.quiet.trans (hq.mono fun _ hp => .inl hp.1)
  holds := by
    obtain ⟨files, hfiles⟩ := h.holds
    exact ⟨files, hfiles.of_quiet (hq.mono fun _ hp => .inr hp)⟩

/-- A path that avoided places avoids them beside the directory, and the directory as well. -/
theorem Beside.avoids (h : Beside away t place d₀ d) {p : Path} (hp : d₀.Avoids away p)
    (hname : t.base ∉ Path.components p) : d.Avoids (fun q => away q ∨ t.base ∈ q) p := by
  intro d' hq follow f hf haway
  have h' := h.of_quiet hq
  obtain ⟨files, hfiles⟩ := h'.holds
  have hout : t.base ∉ f.place := hfiles.avoids hname d' (.refl _ d') follow f hf
  refine hp (d'.without t.base) h'.quiet_without follow f ?_ (haway.resolve_right hout)
  -- the search does not notice the directory
  obtain ⟨hadm, hleads⟩ := find_eq_ok_iff.1 hf
  refine find_eq_ok_iff.2 ⟨hadm, hleads.beside (fun q hq => ?_) hfiles.links ?_ hname⟩
  · rw [node?_without, if_neg hq]
  · rw [start]
    split
    · exact List.not_mem_nil
    · exact hfiles.cwd

theorem Beside.of_works (h : Beside away t place d₀ d) {files : Bytes → Option Node} (hworks : d'.Works t place files)
    (hnode : ∀ p, t.base ∉ p → d'.node? p = d.node? p) (hcwd : d'.cwd = d.cwd) : Beside away t place d₀ d' where
  unmentioned := h.unmentioned
  quiet :=
    { same := fun p hp => (hnode p hp.2).trans (h.quiet.same p hp)
      kept := fun p n hn => by
        have hp : t.base ∉ p := by
          intro hmem
          rw [h.unmentioned.places p hmem] at hn
          cases hn
        rw [hnode p hp]
        exact h.quiet.kept p n hn
      links := fun p target ht => by
        by_cases hp : t.base ∈ p
        · -- the directory holds no links
          rw [hworks.holds.places p hp] at ht
          unfold fileTree at ht
          split at ht
          · cases ht
          split at ht
          · rename_i x _
            split at ht
            · obtain ⟨content, time, hfile⟩ := hworks.regular x _ ht
              cases hfile
            · cases ht
          · cases ht
        · exact h.quiet.links p target ((hnode p hp).symm.trans ht)
      cwd := hcwd.trans h.quiet.cwd }
  holds := ⟨files, hworks.holds⟩

/-! ## The directory comes and goes -/

theorem beside_of_put (away : Place → Prop) (h : d.Unmentioned t.base)
    (hholds : (d.put (place ++ [t.base]) .directory).Holds t.base (fileTree (place ++ [t.base]) fun _ => none)) :
    Beside away t place d (d.put (place ++ [t.base]) .directory) where
  unmentioned := h
  quiet := by
    refine .put (by simp) (fun haway => haway.2 (by simp)) (fun target ht => by cases ht) fun old hold => ?_
    rw [h.places _ (by simp)] at hold
    cases hold
  holds := ⟨_, hholds⟩

end Disk

end ShaderForge
