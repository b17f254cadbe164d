import ShaderForge.Proofs.Files.Replacement

/-!
# ShaderForge.Proofs.Files.Storing

What paths lead to once a file was written or taken away.

* `Disk.Accepts`, `Disk.store_eq_ok` — a file is written where nothing or a file stands.
* `Disk.Leads.elsewhere`  — a walk that ends at another place does not come by.
* `Disk.find_of_store`, `Disk.find_store_of_ne`, `Disk.find_of_find_store` — the path of the file leads to it, and paths
  that lead to other places still do.
* `Disk.absent_of_remove`, `Disk.absent_of_remove_error` — nothing is left at a path that was removed, nor was there
  anything at one that cannot be.
-/

namespace ShaderForge

namespace Disk

variable {d d' τ : Disk} {q s : Place} {follow : Bool} {links : Nat} {rest : List Bytes} {f : Found}
  {p : Path} {content : Bytes}

/-! ## Writing -/

/-- A file can be put at the place: nothing or a file stands there. -/
def Accepts (d : Disk) (q : Place) : Prop := d.node? q = none ∨ ∃ content time, d.node? q = some (.file content time)

theorem Accepts.eq_file (h : d.Accepts q) {n : Node} (hn : d.node? q = some n) :
    ∃ content time, n = .file content time := by
  rcases h with hnone | ⟨content, time, hfile⟩
  · rw [hnone] at hn
    cases hn
  · rw [hfile] at hn
    cases hn
    exact ⟨content, time, rfl⟩

theorem Accepts.ne_directory (h : d.Accepts q) {P : Place} (hP : d.node? P = some .directory) : P ≠ q := by
  rintro rfl
  obtain ⟨_, _, heq⟩ := h.eq_file hP
  cases heq

theorem Accepts.ne_nil (h : d.Accepts q) : q ≠ [] := (h.ne_directory (node?_nil d)).symm

/-- Directories and links stand in both of two trees that differ at such a place. -/
theorem Accepts.passed (hq : d.Accepts q) (hsame : ∀ p, p ≠ q → τ.node? p = d.node? p) {p : Place} {n : Node}
    (hp : d.node? p = some n) (hn : ∀ content time, n ≠ .file content time) : τ.node? p = some n := by
  rw [hsame, hp]
  rintro rfl
  obtain ⟨_, _, heq⟩ := hq.eq_file hp
  exact hn _ _ heq

theorem store_eq_ok (h : d.store p content = .ok d') : ∃ f : Found, d.find true p = .ok f ∧ d.Accepts f.place ∧
    (∀ place, f ≠ .vacant place true) ∧ d' = d.putFile f.place content := by
  unfold store at h
  split at h
  · rename_i hf
    cases h
    exact ⟨_, hf, .inr ⟨_, _, node?_of_find hf⟩, by simp, rfl⟩
  · rename_i hf
    cases h
    exact ⟨_, hf, .inl (node?_of_find hf), by simp, rfl⟩
  · cases h
  · cases h

/-- Of two trees that differ at one place, where the first has no directory and no link: a walk that ends at another
place is the same in both. -/
theorem Leads.elsewhere (hsame : ∀ p, p ≠ q → τ.node? p = d.node? p) (hq : d.Accepts q)
    (h : d.Leads follow links s rest f) (hf : f.place ≠ q) : τ.Leads follow links s rest f := by
  have hpassed := @Accepts.passed d τ q hq hsame
  induction h with
  | here hn => exact .here ((hsame _ hf).trans hn)
  | stay hdir hc _ ih => exact .stay (hpassed hdir (by simp)) hc (ih hf)
  | up hdir _ ih => exact .up (hpassed hdir (by simp)) (ih hf)
  | @down links place c rest f n hdir hc hn hlink hrest ih =>
    have hne : place ++ [c] ≠ q := by
      rintro rfl
      cases rest with
      | nil =>
        cases hrest
        exact hf rfl
      | cons e rest =>
        obtain ⟨_, _, heq⟩ := hq.eq_file hrest.directory_of_cons
        cases heq
    exact .down (hpassed hdir (by simp)) hc ((hsame _ hne).trans hn) hlink (ih hf)
  | jump hdir hc hn hpass _ ih => exact .jump (hpassed hdir (by simp)) hc (hpassed hn (by simp)) hpass (ih hf)
  | link hdir hc hn hfollow => exact .link (hpassed hdir (by simp)) hc (hpassed hn (by simp)) hfollow
  | vacant hdir hc hn hrest => exact .vacant (hpassed hdir (by simp)) hc ((hsame _ hf).trans hn) hrest

theorem Adds.leads_self {time : Int} (h : Adds d q (.file content time) τ) (hq : d.Accepts q)
    (hf : f.place = q) (hplain : ∀ place, f ≠ .vacant place true) (hl : d.Leads true links s rest f) :
    τ.Leads true links s rest (.node q (.file content time)) := by
  have hpassed := @Accepts.passed d τ q hq fun _ => h.of_ne
  induction hl with
  | here hn =>
    cases hf
    exact .here h.self
  | stay hdir hc _ ih => exact .stay (hpassed hdir (by simp)) hc (ih hf hplain)
  | up hdir _ ih => exact .up (hpassed hdir (by simp)) (ih hf hplain)
  | @down links place c rest f n hdir hc hn hlink _ ih =>
    by_cases heq : place ++ [c] = q
    · exact .down (hpassed hdir (by simp)) hc (heq ▸ h.self) (by simp) (ih hf hplain)
    · exact .down (hpassed hdir (by simp)) hc ((h.of_ne heq).trans hn) hlink (ih hf hplain)
  | jump hdir hc hn hpass _ ih =>
    exact .jump (hpassed hdir (by simp)) hc (hpassed hn (by simp)) hpass (ih hf hplain)
  | link _ _ _ hfollow => cases hfollow
  | @vacant links place c rest hdir hc hn hrest =>
    cases hf
    -- a path that ends in a slash would ask for a directory
    cases rest with
    | nil => exact .down (hpassed hdir (by simp)) hc h.self (by simp) (.here h.self)
    | cons e rest => exact absurd rfl (hplain (place ++ [c]))

theorem find_of_leads (hcwd : τ.cwd = d.cwd) {g : Found} (hf : d.find follow p = .ok f)
    (h : d.Leads follow maxLinks (d.start p) (Path.components p) f →
      τ.Leads follow maxLinks (d.start p) (Path.components p) g) :
    τ.find follow p = .ok g := by
  obtain ⟨hadmissible, hleads⟩ := find_eq_ok_iff.1 hf
  refine find_eq_ok_iff.2 ⟨hadmissible, ?_⟩
  rw [start, hcwd, ← start]
  exact h hleads

theorem find_of_store (h : d.store p content = .ok d') (hf : d.find true p = .ok f) :
    d'.find true p = .ok (.node f.place (.file content d.clock)) := by
  obtain ⟨g, hg, hplace, hplain, rfl⟩ := store_eq_ok h
  rw [hf] at hg
  cases hg
  have hadds := adds_putFile (d := d) hplace.ne_nil content
  exact find_of_leads hadds.cwd hf (hadds.leads_self hplace rfl hplain)

theorem contents_of_find {time : Int} (h : d.find true p = .ok (.node q (.file content time))) :
    d.contents p = .ok content := by
  rw [contents, inspect, h]

theorem find_of_contents (h : d.contents p = .ok content) :
    ∃ q time, d.find true p = .ok (.node q (.file content time)) := by
  unfold contents at h
  split at h
  · rename_i hf
    cases h
    exact ⟨_, _, find_of_inspect hf⟩
  · cases h
  · cases h

theorem find_store_of_ne {p' : Path} {g : Found} (h : d.store p content = .ok d') (hf : d.find true p = .ok f)
    (hg : d.find follow p' = .ok g) (hne : g.place ≠ f.place) : d'.find follow p' = .ok g := by
  obtain ⟨k, hk, hplace, -, rfl⟩ := store_eq_ok h
  rw [hf] at hk
  cases hk
  have hadds := adds_putFile (d := d) hplace.ne_nil content
  exact find_of_leads hadds.cwd hg fun hl => hl.elsewhere (fun _ => hadds.of_ne) hplace hne

theorem find_of_find_store {p' : Path} {g : Found} (h : d.store p content = .ok d') (hf : d.find true p = .ok f)
    (hg : d'.find follow p' = .ok g) (hne : g.place ≠ f.place) : d.find follow p' = .ok g := by
  obtain ⟨k, hk, hplace, -, rfl⟩ := store_eq_ok h
  rw [hf] at hk
  cases hk
  have hadds := adds_putFile (d := d) hplace.ne_nil content
  exact find_of_leads hadds.cwd.symm hg fun hl =>
    hl.elsewhere (fun _ hp => (hadds.of_ne hp).symm) (.inr ⟨_, _, hadds.self⟩) hne

theorem find_directory_store {dir : Path} {P : Place} (h : d.store p content = .ok d')
    (hP : d.find true dir = .ok (.node P .directory)) : d'.find true dir = .ok (.node P .directory) := by
  obtain ⟨f, hf, hplace, -⟩ := store_eq_ok h
  exact find_store_of_ne h hf hP (hplace.ne_directory (node?_of_find hP))

theorem links_of_store (h : d.store p content = .ok d') (q : Place) (target : Path)
    (hq : d'.node? q = some (.link target)) : d.node? q = some (.link target) := by
  obtain ⟨f, -, hplace, -, rfl⟩ := store_eq_ok h
  rw [node?_putFile d hplace.ne_nil] at hq
  split at hq
  · cases hq
  · exact hq

theorem cwd_of_store (h : d.store p content = .ok d') : d'.cwd = d.cwd := by
  obtain ⟨f, -, -, -, rfl⟩ := store_eq_ok h
  exact cwd_put d _ _

/-! ## Taking away -/

theorem isPresent_iff : d.isPresent p = true ↔ ∃ q n, d.find true p = .ok (.node q n) := by
  constructor
  · intro h
    unfold isPresent at h
    split at h
    · rename_i n hn
      obtain ⟨q, hq⟩ := find_of_stat hn
      exact ⟨q, n, hq⟩
    · cases h
  · rintro ⟨q, n, h⟩
    rw [isPresent, stat, inspect, h]

theorem isPresent_congr {p' : Path} (h : d'.find true p' = d.find true p) : d'.isPresent p' = d.isPresent p := by
  rw [Bool.eq_iff_iff, isPresent_iff, isPresent_iff, h]

/-- A walk that leads to a node also does if the last link is not followed. -/
theorem Leads.unfollowed {n : Node} (hf : f = .node q n) (h : d.Leads true links s rest f) :
    ∃ q' n', d.Leads false links s rest (.node q' n') := by
  induction h with
  | here hn => exact ⟨_, _, .here hn⟩
  | stay hdir hc _ ih =>
    obtain ⟨q', n', h'⟩ := ih hf
    exact ⟨q', n', .stay hdir hc h'⟩
  | up hdir _ ih =>
    obtain ⟨q', n', h'⟩ := ih hf
    exact ⟨q', n', .up hdir h'⟩
  | down hdir hc hn hlink _ ih =>
    obtain ⟨q', n', h'⟩ := ih hf
    exact ⟨q', n', .down hdir hc hn hlink h'⟩
  | @jump links place c rest f target hdir hc hn _ _ ih =>
    cases rest with
    | nil => exact ⟨_, _, .link hdir hc hn rfl⟩
    | cons e rest =>
      obtain ⟨q', n', h'⟩ := ih hf
      exact ⟨q', n', .jump hdir hc hn (.inl (by simp)) h'⟩
  | link _ _ _ hfollow => cases hfollow
  | vacant => cases hf

theorem Leads.gone {n m : Node} {P : Place} (hsub : ∀ p m, τ.node? p = some m → d.node? p = some m)
    (hgone : τ.node? q = none) (hf : f = .node q n) (h : d.Leads false links s rest f) :
    ¬ τ.Leads true links s rest (.node P m) := by
  have hagree : ∀ {p a b}, d.node? p = some a → τ.node? p = some b → b = a := by
    intro p a b ha hb
    have hsame := (hsub p b hb).symm.trans ha
    exact Option.some.inj hsame
  induction h with
  | here hn =>
    cases hf
    intro h'
    cases h' with
    | here hm =>
      rw [hgone] at hm
      cases hm
  | stay hdir hc _ ih =>
    intro h'
    cases h' with
    | stay _ _ h' => exact ih hf h'
    | up => rcases hc with hc | hc <;> cases hc
    | down _ hnames | jump _ hnames => exact hc.elim hnames.ne_nil hnames.ne_dot
    | link _ _ _ hfollow => cases hfollow
  | up hdir _ ih =>
    intro h'
    cases h' with
    | stay _ hc => rcases hc with hc | hc <;> cases hc
    | up _ h' => exact ih hf h'
    | down _ hnames | jump _ hnames => exact hnames.ne_dotDot rfl
    | link _ _ _ hfollow => cases hfollow
  | down hdir hc hn hlink _ ih =>
    intro h'
    cases h' with
    | stay _ hc' => exact hc'.elim hc.ne_nil hc.ne_dot
    | up => exact hc.ne_dotDot rfl
    | down _ _ _ _ h' => exact ih hf h'
    | jump _ _ hn' => exact hlink _ (hagree hn hn').symm
    | link _ _ _ hfollow => cases hfollow
  | jump hdir hc hn hpass _ ih =>
    intro h'
    cases h' with
    | stay _ hc' => exact hc'.elim hc.ne_nil hc.ne_dot
    | up => exact hc.ne_dotDot rfl
    | down _ _ hn' hlink => exact hlink _ (hagree hn hn')
    | jump _ _ hn' _ h' =>
      cases hagree hn hn'
      exact ih hf h'
    | link _ _ _ hfollow => cases hfollow
  | link hdir hc hn hfollow =>
    cases hf
    intro h'
    cases h' with
    | stay _ hc' => exact hc'.elim hc.ne_nil hc.ne_dot
    | up => exact hc.ne_dotDot rfl
    | down _ _ hn' | jump _ _ hn' =>
      rw [hgone] at hn'
      cases hn'
    | link _ _ _ hfollow => cases hfollow
  | vacant => cases hf

theorem absent_of_remove (hdir : ∀ q, d.find false p ≠ .ok (.node q .directory)) (h : d.remove p = .ok d') :
    d'.isPresent p = false := by
  have hremoved : ∃ q n, d.find false p = .ok (.node q n) ∧ d' = d.erase q := by
    unfold remove at h
    split at h
    · rename_i hf
      exact absurd (find_of_inspect hf) (hdir _)
    · rename_i hf
      cases h
      exact ⟨_, _, find_of_inspect hf, rfl⟩
    · cases h
  obtain ⟨q, n, hf, rfl⟩ := hremoved
  have hne : q ≠ [] := by
    refine ne_nil_of_not_directory (node?_of_find hf) fun heq => hdir q ?_
    cases heq
    exact hf
  have hnode := node?_erase d hne
  rw [Bool.eq_false_iff, Ne, isPresent_iff]
  rintro ⟨P, m, hm⟩
  obtain ⟨-, hleads⟩ := find_eq_ok_iff.1 hf
  obtain ⟨-, hleads'⟩ := find_eq_ok_iff.1 hm
  refine hleads.gone (τ := d.erase q) (fun p m hp => ?_) ?_ rfl hleads'
  · rw [hnode] at hp
    split at hp
    · cases hp
    · exact hp
  · rw [hnode, if_pos List.prefix_rfl]

/-- A path that led to no directory leads to nothing if it cannot be removed. -/
theorem absent_of_remove_error {e : FileError} (hdir : ∀ q, d.find false p ≠ .ok (.node q .directory))
    (h : d.remove p = .error e) : d.isPresent p = false := by
  rw [Bool.eq_false_iff, Ne, isPresent_iff]
  rintro ⟨P, m, hm⟩
  obtain ⟨hadmissible, hleads⟩ := find_eq_ok_iff.1 hm
  obtain ⟨q, n, hleads'⟩ := hleads.unfollowed rfl
  have hf : d.find false p = .ok (.node q n) := find_eq_ok_iff.2 ⟨hadmissible, hleads'⟩
  rw [remove, inspect, hf] at h
  cases n with
  | directory => exact hdir q hf
  | file | link => cases h

end Disk

end ShaderForge
