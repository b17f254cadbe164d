import ShaderForge.Proofs.Build.Paving

/-!
# ShaderForge.Proofs.Build.SharedOutput

Writing several files below one directory at the same time.

* `Yard.Clear`   — a file that nothing is in the way of.
* `Yard.Holds`   — the tree while the fresh file stands, and what each call makes of it (`Holds.store`, `Holds.rename`).
* `Yard.Written` — what comes of it: the file is written exactly if nothing was in the way at first.
* `Yard.Stands.safe_writeCalls`    — so it is, whatever others write meanwhile.
* `Yard.Stands.written_of_reaches` — all of them together, in any order of their calls.
-/

namespace ShaderForge

open Disk

/-- A file that is not made because of what is there finds its path taken. -/
theorem Disk.taken_of_create {d : Disk} {p : Path} {e : FileError} (h : d.create p = .error e)
    (he : e.cause = .exists) : d.Taken p := by
  unfold create at h
  split at h
  · cases h
  · cases h
    cases he
  · rename_i q n hf
    exact ⟨q, n, hf⟩
  · rename_i cause hf
    cases h
    cases he
    exact absurd hf (find_ne_exists d false p)

theorem Disk.IsTree.adds {d τ : Disk} {P : Place} {x content : Bytes} {time : Int} (h : d.IsTree)
    (hparent : d.node? P = some .directory) (hdir : d.node? (P ++ [x]) ≠ some .directory)
    (ha : Adds d (P ++ [x]) (.file content time) τ) : τ.IsTree := by
  intro q c n hn
  by_cases hq : q ++ [c] = P ++ [x]
  · obtain ⟨rfl, -⟩ := List.append_inj' hq rfl
    rw [ha.of_ne (by simp), hparent]
  · rw [ha.of_ne hq] at hn
    have hparent' := h q c n hn
    rw [ha.of_ne, hparent']
    rintro rfl
    exact hdir hparent'

namespace Yard

variable {y : Yard} {a : Deposit} {d d' d₀ : Disk} {k : Nat}

/-! ## The fresh file -/

/-- The numeral of the fresh file: the first whose name is free. -/
structure Draws (y : Yard) (a : Deposit) (d : Disk) (n : Nat) : Prop where
  numeral : firstNumeral ≤ n
  names : Names (a.temp n)
  admissible : Admissible (inside (y.target a).dir (a.temp n))
  free : d.node? (y.seat a ++ [a.temp n]) = none
  taken : ∀ m, firstNumeral ≤ m → m < n → Names (a.temp m) ∧ Admissible (inside (y.target a).dir (a.temp m)) ∧
    d.node? (y.seat a ++ [a.temp m]) ≠ none

/-- The file can be written. -/
structure Clear (y : Yard) (a : Deposit) (d : Disk) : Prop where
  pavable : y.Pavable a d
  admissible : Admissible (y.target a).path
  names : Names a.base
  free : d.node? (y.seat a ++ [a.base]) ≠ some .directory
  numeral : ∃ n, y.Draws a d n

theorem own_temp (y : Yard) (a : Deposit) (n : Nat) : y.Own a (y.seat a ++ [a.temp n]) :=
  ⟨a.temp n, rfl, .inr ⟨n, rfl⟩⟩

theorem own_base (y : Yard) (a : Deposit) : y.Own a (y.seat a ++ [a.base]) := ⟨a.base, rfl, .inl rfl⟩

theorem plain_temp (a : Deposit) (n : Nat) : Path.Plain (a.temp n) := by
  rw [← a.freshName_target []]
  exact plain_freshName (a.slash_not_mem_pattern []) n

theorem taken_iff (hopens : (y.target a).Opens d (y.seat a)) (n : Nat) :
    d.Taken (inside (y.target a).dir (a.temp n)) ↔ Names (a.temp n) ∧
      Admissible (inside (y.target a).dir (a.temp n)) ∧ d.node? (y.seat a ++ [a.temp n]) ≠ none := by
  unfold Taken
  simp only [OutputPath.find_inside (plain_temp a n).no_slash, hopens.leads_iff (plain_temp a n)]
  constructor
  · rintro ⟨P, m, hadm, hnames, -, hn⟩
    exact ⟨hnames, hadm, by simp [hn]⟩
  · rintro ⟨hnames, hadm, hn⟩
    obtain ⟨m, hm⟩ := Option.ne_none_iff_exists'.1 hn
    exact ⟨_, m, hadm, hnames, rfl, hm⟩

theorem createTemp_of_draws (hopens : (y.target a).Opens d (y.seat a)) {n : Nat} (h : y.Draws a d n) :
    ∃ d', d.createTemp (y.target a).dir (outputPattern (y.target a).path) =
      .ok (inside (y.target a).dir (a.temp n), d') := by
  have hslash := a.slash_not_mem_pattern y.out
  obtain ⟨m, hm, hle, hfree⟩ := d.exists_free (y.target a).dir hslash
  rw [a.freshName_target] at hfree
  have hnm : n ≤ m := by
    by_contra hlt
    exact hfree ((taken_iff hopens m).2 (h.taken m hm (by omega)))
  have hfind : d.find false (inside (y.target a).dir (a.temp n)) = .ok (.vacant (y.seat a ++ [a.temp n]) false) := by
    refine (OutputPath.find_inside (plain_temp a n).no_slash).2 ⟨h.admissible, ?_⟩
    obtain ⟨links, happend⟩ := Leads.append hopens
    exact happend false _ _ (by simp) (.vacant hopens.node? h.names h.free (by simp))
  refine ⟨d.putFile (y.seat a ++ [a.temp n]) [], ?_⟩
  have htry : tryNumerals (fun n => inside (y.target a).dir (freshName (outputPattern (y.target a).path) n))
      d.create d.nodes.length firstNumeral = .ok (inside (y.target a).dir
        (freshName (outputPattern (y.target a).path) n), d.putFile (y.seat a ++ [a.temp n]) []) := by
    refine tryNumerals_of_free h.numeral (by omega) (fun k hk hlt => ?_) ?_
    · obtain ⟨q, node, hf⟩ := (taken_iff hopens k).2 (h.taken k hk hlt)
      rw [a.freshName_target]
      exact ⟨_, by rw [create, hf], rfl⟩
    · rw [a.freshName_target, create, hfind]
  have hno : ¬ (outputPattern (y.target a).path).contains [Bytes.slash] = true :=
    fun hmem => hslash (Bytes.contains_singleton.1 hmem)
  rw [a.freshName_target] at htry
  rw [createTemp, if_neg hno]
  exact htry

theorem draws_of_createTemp (hopens : (y.target a).Opens d (y.seat a)) {temp : Path}
    (hmade : d.createTemp (y.target a).dir (outputPattern (y.target a).path) = .ok (temp, d')) :
    ∃ n, y.Draws a d n ∧ temp = inside (y.target a).dir (a.temp n) ∧
      ∃ time, Adds d (y.seat a ++ [a.temp n]) (.file [] time) d' := by
  unfold Disk.createTemp at hmade
  split at hmade
  · cases hmade
  obtain ⟨n, hn, htemp, hcreate, hrefused⟩ := tryNumerals_eq_ok hmade
  change temp = inside _ (freshName _ n) at htemp
  rw [a.freshName_target] at htemp
  subst htemp
  obtain ⟨q, hf, rfl⟩ := create_eq_ok hcreate
  obtain ⟨hadm, hleads⟩ := (OutputPath.find_inside (plain_temp a n).no_slash).1 hf
  obtain ⟨P, hroute, rfl, hnames, hvacant⟩ := hleads.vacant_concat (plain_temp a n).ne_nil
  cases hroute.unique hopens
  refine ⟨n, ⟨hn, hnames, hadm, hvacant, fun m hm hlt => ?_⟩, rfl, _, adds_putFile (by simp) []⟩
  obtain ⟨e, he, hexists⟩ := hrefused m hm hlt
  change d.create (inside _ (freshName _ m)) = _ at he
  rw [a.freshName_target] at he
  exact (taken_iff hopens m).1 (taken_of_create he hexists)

theorem Draws.of_own {n : Nat} (h : y.Draws a d n) (hown : ∀ q, y.Own a q → d'.node? q = d.node? q) :
    y.Draws a d' n where
  numeral := h.numeral
  names := h.names
  admissible := h.admissible
  free := (hown _ (y.own_temp a n)).trans h.free
  taken m hm hlt := by
    rw [hown _ (y.own_temp a m)]
    exact h.taken m hm hlt

/-- The fresh file stands in the directory, and the file that it becomes is as it was in the tree `d₀`. -/
structure Holds (y : Yard) (a : Deposit) (d₀ : Disk) (n : Nat) (content : Bytes) (d : Disk) : Prop where
  stands : y.Stands d
  pavable : y.Pavable a d₀
  draws : y.Draws a d₀ n
  temp : ∃ time, d.node? (y.seat a ++ [a.temp n]) = some (.file content time)
  base : d.node? (y.seat a ++ [a.base]) = d₀.node? (y.seat a ++ [a.base])

theorem base_ne_temp (y : Yard) (a : Deposit) (n : Nat) : y.seat a ++ [a.base] ≠ y.seat a ++ [a.temp n] := by
  simpa using (a.temp_ne_base a n).symm

namespace Holds

variable {n : Nat} {content data : Bytes}

theorem yields (h : y.Holds a d₀ n content d) (hy : y.Yields a d d') : y.Holds a d₀ n content d' := by
  refine { h with stands := hy.stands h.stands, temp := ?_, base := (hy.own _ (y.own_base a)).trans h.base }
  rw [hy.own _ (y.own_temp a n)]
  exact h.temp

theorem opens (h : y.Holds a d₀ n content d) : (y.target a).Opens d (y.seat a) := by
  obtain ⟨time, htemp⟩ := h.temp
  exact h.stands.opens_iff.2 ⟨rfl, h.pavable.names, h.stands.tree _ _ _ htemp⟩

theorem site (h : y.Holds a d₀ n content d) : ∃ D time, Site (y.target a) D (y.seat a) (a.temp n) ∧
    Adds D (y.seat a ++ [a.temp n]) (.file content time) d := by
  obtain ⟨time, htemp⟩ := h.temp
  have hnode := node?_erase d (show y.seat a ++ [a.temp n] ≠ [] by simp)
  have hadds : Adds (d.erase (y.seat a ++ [a.temp n])) (y.seat a ++ [a.temp n]) (.file content time) d := by
    refine ⟨fun p => ?_, rfl⟩
    split
    · rename_i hp
      rw [hp, htemp]
    · rename_i hp
      rw [hnode]
      split
      · rename_i hbelow
        obtain ⟨rest, rfl⟩ := hbelow
        exact h.stands.tree.node?_below (by simp [htemp]) rest (by simpa using hp)
      · rfl
  refine ⟨_, time, ⟨h.stands.tree.erase _, ?_, plain_temp a n, h.draws.names, h.draws.admissible, ?_,
    a.temp_ne_base a n⟩, hadds⟩
  · rw [OutputPath.Opens, OutputPath.start_of_cwd hadds.cwd.symm]
    exact hadds.leads_back h.opens
  · rw [hnode, if_pos List.prefix_rfl]

end Holds

/-! ## What each call changes -/

theorem Stands.loose (h : y.Stands d) {x : Bytes} (hne : d.node? (y.seat a ++ [x]) ≠ some .directory) :
    Loose (d.node? (y.seat a ++ [x])) := by
  have hlink := fun target => h.unlinked (a.dirs ++ [x]) target (by simp)
  rw [← List.append_assoc] at hlink
  change ∀ target, d.node? (y.seat a ++ [x]) ≠ _ at hlink
  cases hn : d.node? (y.seat a ++ [x]) with
  | none => exact .inl rfl
  | some n =>
    rw [hn] at hlink hne
    cases n with
    | directory => exact absurd rfl hne
    | file content time => exact .inr ⟨content, time, rfl⟩
    | link target => exact absurd rfl (hlink target)

theorem changes_of_adds {P : Place} {x content : Bytes} {time : Int} (hown : y.Own a (P ++ [x]))
    (hparent : d.node? P = some .directory) (hloose : Loose (d.node? (P ++ [x])))
    (h : Adds d (P ++ [x]) (.file content time) d') : y.Changes a d d' := by
  have hdir : d.node? (P ++ [x]) ≠ some .directory := by
    rcases hloose with hnone | ⟨_, _, hfile⟩
    · simp [hnone]
    · simp [hfile]
  refine ⟨fun htree => htree.adds hparent hdir h, h.cwd, fun q => ?_⟩
  by_cases hq : q = P ++ [x]
  · subst hq
    exact .inr (.inr ⟨hown, hloose, .inr ⟨content, time, h.self⟩⟩)
  · exact .inl (h.of_ne hq)

theorem Laid.holds (h₀ : y.Stands d₀) (h : y.Laid a d₀ (y.target a).above.length (.ok ()) d) {temp : Path}
    (hcreated : d.createTemp (y.target a).dir (outputPattern (y.target a).path) = .ok (temp, d')) :
    ∃ n, temp = inside (y.target a).dir (a.temp n) ∧ y.Changes a d d' ∧ y.Holds a d₀ n [] d' := by
  have hstands := h.yields.stands h₀
  have hopens := hstands.opens_of_made (h.made rfl)
  obtain ⟨n, hdraws, rfl, time, hadds⟩ := draws_of_createTemp hopens hcreated
  have hchanges := changes_of_adds (y.own_temp a n) hopens.node? (.inl hdraws.free) hadds
  refine ⟨n, rfl, hchanges, hchanges.stands hstands, h.pavable h₀ (OutputPath.admissible_of_inside hdraws.admissible), ?_,
    ⟨time, hadds.self⟩, (hadds.of_ne (y.base_ne_temp a n)).trans (h.yields.own _ (y.own_base a))⟩
  exact hdraws.of_own fun q hq => (h.yields.own q hq).symm

namespace Holds

variable {n : Nat} {content data : Bytes}

theorem store (h : y.Holds a d₀ n content d) (data : Bytes) :
    ∃ d', d.store (inside (y.target a).dir (a.temp n)) data = .ok d' ∧
      y.Changes a d d' ∧ y.Holds a d₀ n data d' := by
  obtain ⟨D, time, hsite, hadds⟩ := h.site
  have hput := adds_putFile (d := d) (show y.seat a ++ [a.temp n] ≠ [] by simp) data
  have hchanges : y.Changes a d (d.putFile (y.seat a ++ [a.temp n]) data) :=
    changes_of_adds (y.own_temp a n) h.opens.node? (.inr ⟨_, _, hadds.self⟩) hput
  refine ⟨_, hsite.store hadds data, hchanges, ?_⟩
  exact { h with
    stands := hchanges.stands h.stands
    temp := ⟨_, hput.self⟩
    base := (hput.of_ne (y.base_ne_temp a n)).trans h.base }

theorem remove (h : y.Holds a d₀ n content d)
    (hremoved : d.remove (inside (y.target a).dir (a.temp n)) = .ok d') : y.Changes a d d' := by
  obtain ⟨D, time, hsite, hadds⟩ := h.site
  have hsame := hsite.remove hadds hremoved
  refine ⟨fun htree => htree.remove hremoved, hsame.cwd.trans hadds.cwd.symm, fun q => ?_⟩
  by_cases hq : q = y.seat a ++ [a.temp n]
  · subst hq
    refine .inr (.inr ⟨y.own_temp a n, .inr ⟨_, _, hadds.self⟩, .inl ?_⟩)
    rw [hsame.node, hsite.vacant]
  · rw [hsame.node, hadds.of_ne hq]
    exact .inl rfl

theorem rename (h : y.Holds a d₀ n data d)
    (hrenamed : d.rename (inside (y.target a).dir (a.temp n)) (y.target a).path = .ok d') :
    y.Clear a d₀ ∧ y.Changes a d d' ∧ (∃ time, d'.node? (y.seat a ++ [a.base]) = some (.file data time)) ∧
      d'.node? (y.seat a ++ [a.temp n]) = none := by
  obtain ⟨D, time, hsite, hadds⟩ := h.site
  have hreplaced := hsite.rename hadds hrenamed
  obtain ⟨time', hadds'⟩ := hreplaced.adds
  have hne := y.base_ne_temp a n
  have hnone : d'.node? (y.seat a ++ [a.temp n]) = none := (hadds'.of_ne hne.symm).trans hsite.vacant
  have hbefore : d.node? (y.seat a ++ [a.base]) ≠ some .directory := by
    rw [hadds.of_ne hne]
    exact hreplaced.not_directory
  have hclear : y.Clear a d₀ :=
    ⟨h.pavable, hreplaced.admissible, hreplaced.names, by rwa [← h.base], n, h.draws⟩
  refine ⟨hclear, ⟨fun _ => hsite.tree.adds hsite.opens.node? hreplaced.not_directory hadds', ?_, fun q => ?_⟩,
    ⟨time', hadds'.self⟩, hnone⟩
  · exact hadds'.cwd.trans hadds.cwd.symm
  · by_cases hbase : q = y.seat a ++ [a.base]
    · subst hbase
      exact .inr (.inr ⟨y.own_base a, h.stands.loose hbefore, .inr ⟨_, _, hadds'.self⟩⟩)
    · by_cases htemp : q = y.seat a ++ [a.temp n]
      · subst htemp
        exact .inr (.inr ⟨y.own_temp a n, .inr ⟨_, _, hadds.self⟩, .inl hnone⟩)
      · exact .inl ((hadds'.of_ne hbase).trans (hadds.of_ne htemp).symm)

theorem renames (h : y.Holds a d₀ n data d) (hclear : y.Clear a d₀) :
    ∃ d', d.rename (inside (y.target a).dir (a.temp n)) (y.target a).path = .ok d' := by
  obtain ⟨D, time, hsite, hadds⟩ := h.site
  have hfile := hsite.find_file hadds false
  have hfree := hclear.free
  rw [← h.base] at hfree
  have hfind : ∃ f, d.find false (y.target a).path = .ok f ∧ f.node? ≠ some .directory := by
    obtain ⟨links, happend⟩ := Leads.append h.opens
    rcases h.stands.loose hfree with hnone | ⟨content, time, hfile⟩
    · refine ⟨.vacant (y.seat a ++ [a.base]) false, OutputPath.find_path.2 ⟨hclear.admissible, ?_⟩, nofun⟩
      exact happend false _ _ (by simp) (.vacant h.opens.node? hclear.names hnone (by simp))
    · refine ⟨.node (y.seat a ++ [a.base]) (.file content time), OutputPath.find_path.2 ⟨hclear.admissible, ?_⟩, nofun⟩
      exact (h.opens.leads_iff (y.target a).plain).2 ⟨hclear.names, rfl, hfile⟩
  obtain ⟨f, hf, hdir⟩ := hfind
  simp only [Disk.rename, inspect, hfile, hf]
  cases f with
  | vacant q asDirectory => exact ⟨_, rfl⟩
  | node q m =>
    cases m with
    | directory => exact absurd rfl hdir
    | file | link => exact ⟨_, rfl⟩

end Holds

theorem Stands.remove_ne_ok (h : y.Stands d) {n : Nat} (hfree : d.node? (y.seat a ++ [a.temp n]) = none) :
    d.remove (inside (y.target a).dir (a.temp n)) ≠ .ok d' := by
  intro hremoved
  have hfound : ∃ Q m, d.find false (inside (y.target a).dir (a.temp n)) = .ok (.node Q m) := by
    unfold Disk.remove at hremoved
    split at hremoved
    · rename_i hn
      exact ⟨_, _, find_of_inspect hn⟩
    · rename_i hn
      exact ⟨_, _, find_of_inspect hn⟩
    · cases hremoved
  obtain ⟨Q, m, hf⟩ := hfound
  obtain ⟨-, hleads⟩ := (OutputPath.find_inside (plain_temp a n).no_slash).1 hf
  obtain ⟨P, links, hroute, -⟩ := hleads.split ⟨a.temp n, by simp, (plain_temp a n).ne_nil⟩
  obtain ⟨rfl, -⟩ := h.opens_iff.1 hroute
  obtain ⟨-, -, hn⟩ := (OutputPath.Opens.leads_iff hroute (plain_temp a n)).1 hleads
  rw [hfree] at hn
  cases hn

/-! ## The file -/

/-- What writing a file from the tree `d₀` comes to: it succeeds exactly if nothing was in the way then. -/
structure Written (y : Yard) (a : Deposit) (d₀ : Disk) (data : Bytes) (r : Except CompileCause Unit) (d : Disk) :
    Prop where
  stands : y.Stands d
  ok : r = .ok () ↔ y.Clear a d₀
  node : r = .ok () → ∃ time, d.node? (y.seat a ++ [a.base]) = some (.file data time)

theorem Written.contents {data : Bytes} (h : y.Written a d₀ data (.ok ()) d) :
    d.contents (y.target a).path = .ok data := by
  have hclear := h.ok.1 rfl
  obtain ⟨time, hnode⟩ := h.node rfl
  have hopens : (y.target a).Opens d (y.seat a) :=
    h.stands.opens_iff.2 ⟨rfl, hclear.pavable.names, h.stands.tree _ _ _ hnode⟩
  have hleads := (hopens.leads_iff (y.target a).plain).2 ⟨hclear.names, rfl, hnode⟩
  have hfind : d.find true (y.target a).path = .ok (.node (y.seat a ++ [a.base]) (.file data time)) :=
    OutputPath.find_path.2 ⟨hclear.admissible, hleads.followed (by simp) rfl⟩
  rw [Disk.contents, Disk.inspect, hfind]

theorem Written.safe {data : Bytes} {r : Except CompileCause Unit} (h : y.Written a d₀ data r d) :
    (Writing.done r).Safe (y.Yields a) (y.Changes a) (y.Written a d₀ data) d := by
  refine .done fun d' hd => ⟨hd.stands h.stands, h.ok, fun hr => ?_⟩
  rw [hd.own _ (y.own_base a)]
  exact h.node hr

theorem safe_failed {data : Bytes} {cause : CompileCause} (h : y.Stands d) (hfails : ¬ y.Clear a d₀) :
    (Writing.done (.error cause)).Safe (y.Yields a) (y.Changes a) (y.Written a d₀ data) d :=
  Written.safe ⟨h, iff_of_false nofun hfails, nofun⟩

section Fresh

variable {n : Nat} {content data : Bytes}

theorem Holds.safe_dropTemp (h : y.Holds a d₀ n content d) {cause : CompileCause} (hfails : ¬ y.Clear a d₀) :
    (dropTemp (inside (y.target a).dir (a.temp n)) (.error cause)).Safe
      (y.Yields a) (y.Changes a) (y.Written a d₀ data) d := by
  have hchanges : ∀ d', y.Yields a d d' →
      y.Changes a d' (DiskCall.changed d' (d'.remove (inside (y.target a).dir (a.temp n)))).2 := by
    intro d' hd'
    cases hremoved : d'.remove (inside (y.target a).dir (a.temp n)) with
    | error e => exact .refl y a d'
    | ok d'' => exact (h.yields hd').remove hremoved
  refine .call hchanges fun d' hd' => safe_failed ?_ hfails
  exact (hchanges d' hd').stands (hd'.stands h.stands)

/-- Once the fresh file has become the file, nothing is left to be removed. -/
theorem Stands.safe_dropTemp (h : y.Stands d) (hclear : y.Clear a d₀)
    (hfree : d.node? (y.seat a ++ [a.temp n]) = none)
    (hnode : ∃ time, d.node? (y.seat a ++ [a.base]) = some (.file data time)) :
    (dropTemp (inside (y.target a).dir (a.temp n)) (.ok ())).Safe
      (y.Yields a) (y.Changes a) (y.Written a d₀ data) d := by
  have hsame : ∀ d', y.Yields a d d' →
      (DiskCall.changed d' (d'.remove (inside (y.target a).dir (a.temp n)))).2 = d' := by
    intro d' hd'
    have hfree' : d'.node? (y.seat a ++ [a.temp n]) = none := (hd'.own _ (y.own_temp a n)).trans hfree
    cases hremoved : d'.remove (inside (y.target a).dir (a.temp n)) with
    | error e => rfl
    | ok d'' => exact absurd hremoved ((hd'.stands h).remove_ne_ok hfree')
  refine .call (fun d' hd' => ?_) fun d' hd' => ?_
  · show y.Changes a d' (DiskCall.changed d' (d'.remove _)).2
    rw [hsame d' hd']
    exact .refl y a d'
  · show (Writing.done _).Safe _ _ _ (DiskCall.changed d' (d'.remove _)).2
    rw [hsame d' hd']
    refine Written.safe ⟨hd'.stands h, iff_of_true rfl hclear, fun _ => ?_⟩
    rw [hd'.own _ (y.own_base a)]
    exact hnode

theorem Holds.safe_rename (h : y.Holds a d₀ n data d) :
    (moveTemp (inside (y.target a).dir (a.temp n)) (y.target a).path (.ok ())).Safe
      (y.Yields a) (y.Changes a) (y.Written a d₀ data) d := by
  refine .call (fun d' hd' => ?_) fun d' hd' => ?_
  · show y.Changes a d' (DiskCall.changed d' (d'.rename _ _)).2
    cases hrenamed : d'.rename (inside (y.target a).dir (a.temp n)) (y.target a).path with
    | error e => exact .refl y a d'
    | ok d'' => exact ((h.yields hd').rename hrenamed).2.1
  · show (dropTemp _ ((DiskCall.changed d' (d'.rename _ _)).1.mapError .outputWrite)).Safe _ _ _
      (DiskCall.changed d' (d'.rename _ _)).2
    cases hrenamed : d'.rename (inside (y.target a).dir (a.temp n)) (y.target a).path with
    | error e =>
      refine (h.yields hd').safe_dropTemp fun hclear => ?_
      obtain ⟨d'', hd''⟩ := (h.yields hd').renames hclear
      rw [hrenamed] at hd''
      cases hd''
    | ok d'' =>
      obtain ⟨hclear, hchanges, hnode, hfree⟩ := (h.yields hd').rename hrenamed
      exact (hchanges.stands (hd'.stands h.stands)).safe_dropTemp hclear hfree hnode

theorem Holds.safe_store (h : y.Holds a d₀ n content d) (data : Bytes) :
    (fillTemp (y.target a).path data (.ok (inside (y.target a).dir (a.temp n)))).Safe
      (y.Yields a) (y.Changes a) (y.Written a d₀ data) d := by
  refine .call (fun d' hd' => ?_) fun d' hd' => ?_
  · obtain ⟨d'', hstored, hchanges, -⟩ := (h.yields hd').store data
    show y.Changes a d' (DiskCall.changed d' (d'.store _ _)).2
    rw [hstored]
    exact hchanges
  · obtain ⟨d'', hstored, -, hholds⟩ := (h.yields hd').store data
    show (moveTemp _ _ (DiskCall.changed d' (d'.store _ _)).1).Safe _ _ _ (DiskCall.changed d' (d'.store _ _)).2
    rw [hstored]
    exact hholds.safe_rename

end Fresh

theorem Laid.safe_openTemp (h₀ : y.Stands d₀) {r : Except FileError Unit}
    (h : y.Laid a d₀ (y.target a).above.length r d) (data : Bytes) :
    (openTemp (y.target a).path data r).Safe (y.Yields a) (y.Changes a) (y.Written a d₀ data) d := by
  cases r with
  | error e =>
    refine safe_failed (h.yields.stands h₀) fun hclear => ?_
    cases h.ok hclear.pavable
  | ok _ =>
    unfold openTemp
    rw [OutputPath.dir_path]
    refine .call (fun d' hd' => ?_) fun d' hd' => ?_
    · unfold DiskCall.run
      dsimp only
      cases hcreated : d'.createTemp (y.target a).dir (outputPattern (y.target a).path) with
      | error e => exact .refl y a d'
      | ok made =>
        obtain ⟨-, -, hchanges, -⟩ := (h.of_yields h₀ hd').holds h₀ hcreated
        exact hchanges
    · unfold DiskCall.run
      dsimp only
      have hlaid := h.of_yields h₀ hd'
      have hstands := hlaid.yields.stands h₀
      cases hcreated : d'.createTemp (y.target a).dir (outputPattern (y.target a).path) with
      | error e =>
        refine safe_failed hstands fun hclear => ?_
        obtain ⟨n, hn⟩ := hclear.numeral
        obtain ⟨d'', hd''⟩ := createTemp_of_draws (hstands.opens_of_made (hlaid.made rfl)) (hn.of_own hlaid.yields.own)
        rw [hcreated] at hd''
        cases hd''
      | ok made =>
        obtain ⟨n, htemp, -, hholds⟩ := hlaid.holds h₀ hcreated
        dsimp only at htemp hholds ⊢
        rw [htemp]
        exact hholds.safe_store data

theorem Stands.safe_writeCalls (h₀ : y.Stands d₀) (a : Deposit) (data : Bytes) :
    (writeCalls (y.target a).path data).Safe (y.Yields a) (y.Changes a) (y.Written a d₀ data) d₀ := by
  rw [writeCalls, OutputPath.dir_path]
  exact (h₀.safe_dir (.refl y a d₀)).bind (.refl y a) fun r d hr => hr.safe_openTemp h₀ data

/-- Whatever turns the writings take, each ends as it would have ended alone. -/
theorem Stands.written_of_reaches {ι : Type} [DecidableEq ι] (h₀ : y.Stands d₀) {file : ι → Deposit}
    (hapart : ∀ i j, i ≠ j → (file i).Apart (file j)) (data : ι → Bytes) {b : Crew ι (Except CompileCause Unit)}
    (hreach : Crew.Reaches ⟨d₀, fun i => writeCalls ((file i).target y.out).path (data i)⟩ b) {i : ι}
    {r : Except CompileCause Unit} (hi : b.task i = .done r) : y.Written (file i) d₀ (data i) r b.disk := by
  have hsafe : Crew.Safe (fun i => y.Yields (file i)) (fun i => y.Changes (file i))
      (fun i => y.Written (file i) d₀ (data i)) ⟨d₀, fun i => writeCalls ((file i).target y.out).path (data i)⟩ :=
    fun i => h₀.safe_writeCalls (file i) (data i)
  have hrefl : ∀ i d, y.Yields (file i) d d := fun i d => .refl y (file i) d
  refine (hsafe.reaches hrefl (fun _ _ _ _ => .trans) (fun k i hik _ _ hchanges => ?_) hreach).outcome hrefl hi
  exact hchanges.yields (hapart k i hik.symm)

end Yard

end ShaderForge
