import ShaderForge.Proofs.Files.Walk
import ShaderForge.World

/-!
# ShaderForge.Proofs.Files.Quiet

Changes that stay away from some places of a file tree.

* `Disk.Same`    — the same nodes at the same places.
* `Disk.Quiet`   — a change that leaves these places alone and keeps all other nodes in kind.
* `Disk.Avoids`  — a path that leads to none of these places, also after such changes.
* `Disk.quiet_appendLog` — an entry in a log file is such a change if the path of the file avoids the places.
* `Disk.Holds`   — what stands at the places with a name that no link and no working directory mentions.
* `Disk.Holds.avoids` — a path without that name avoids them.
-/

namespace ShaderForge

/-- A node of the same kind; only the content of a file may differ. -/
inductive Node.Like : Node → Node → Prop
  | same {n : Node} : Node.Like n n
  | file {content content' : Bytes} {time time' : Int} :
      Node.Like (.file content time) (.file content' time')

theorem Node.Like.link_iff {n n' : Node} (h : n.Like n') (target : Path) :
    n' = .link target ↔ n = .link target := by
  cases h with
  | same => exact Iff.rfl
  | file => simp

theorem Node.Like.trans {a b c : Node} (h : a.Like b) (h' : b.Like c) : a.Like c := by
  cases h with
  | same => exact h'
  | file =>
    cases h' with
    | same => exact .file
    | file => exact .file

namespace Disk

variable {d d' d'' : Disk} {away : Place → Prop}

/-! ## Trees that are the same -/

/-- Trees with the same nodes at the same places. -/
structure Same (d d' : Disk) : Prop where
  node : ∀ p, d'.node? p = d.node? p
  cwd : d'.cwd = d.cwd

namespace Same

theorem refl (d : Disk) : Same d d := ⟨fun _ => rfl, rfl⟩

theorem start (h : Same d d') (p : Path) : d'.start p = d.start p := by rw [Disk.start, Disk.start, h.cwd]

theorem symm (h : Same d d') : Same d' d := ⟨fun p => (h.node p).symm, h.cwd.symm⟩

theorem trans {d'' : Disk} (h : Same d d') (h' : Same d' d'') : Same d d'' :=
  ⟨fun p => (h'.node p).trans (h.node p), h'.cwd.trans h.cwd⟩

theorem leads (h : Same d d') {follow : Bool} {links : Nat} {place : Place} {rest : List Bytes} {f : Found}
    (hl : d.Leads follow links place rest f) : d'.Leads follow links place rest f := by
  have hnode : ∀ {p n}, d.node? p = n → d'.node? p = n := fun hp => (h.node _).trans hp
  induction hl with
  | here hn => exact .here (hnode hn)
  | stay hdir hc _ ih => exact .stay (hnode hdir) hc ih
  | up hdir _ ih => exact .up (hnode hdir) ih
  | down hdir hc hn hlink _ ih => exact .down (hnode hdir) hc (hnode hn) hlink ih
  | jump hdir hc hn hpass _ ih => exact .jump (hnode hdir) hc (hnode hn) hpass ih
  | link hdir hc hn hfollow => exact .link (hnode hdir) hc (hnode hn) hfollow
  | vacant hdir hc hn hrest => exact .vacant (hnode hdir) hc (hnode hn) hrest

theorem walk_eq_ok (h : Same d d') {follow : Bool} {links : Nat} {place : Place} {rest : List Bytes} {f : Found} :
    d'.walk follow links place rest = .ok f ↔ d.walk follow links place rest = .ok f := by
  rw [walk_eq_ok_iff, walk_eq_ok_iff]
  exact ⟨h.symm.leads, h.leads⟩

end Same

/-! ## Changes away from some places -/

/-- A change away from some places: no node disappears or changes in kind, and no link is made. -/
structure Quiet (away : Place → Prop) (d d' : Disk) : Prop where
  same : ∀ p, away p → d'.node? p = d.node? p
  kept : ∀ p n, d.node? p = some n → ∃ n', d'.node? p = some n' ∧ n.Like n'
  links : ∀ p target, d'.node? p = some (.link target) → d.node? p = some (.link target)
  cwd : d'.cwd = d.cwd

namespace Quiet

theorem refl (away : Place → Prop) (d : Disk) : Quiet away d d :=
  ⟨fun _ _ => rfl, fun _ n h => ⟨n, h, .same⟩, fun _ _ h => h, rfl⟩

theorem trans (h : Quiet away d d') (h' : Quiet away d' d'') : Quiet away d d'' where
  same p hp := (h'.same p hp).trans (h.same p hp)
  kept p n hn := by
    obtain ⟨n', hn', hlike⟩ := h.kept p n hn
    obtain ⟨n'', hn'', hlike'⟩ := h'.kept p n' hn'
    exact ⟨n'', hn'', hlike.trans hlike'⟩
  links p target ht := h.links p target (h'.links p target ht)
  cwd := h'.cwd.trans h.cwd

theorem directory (h : Quiet away d d') {p : Place} (hp : d.node? p = some .directory) :
    d'.node? p = some .directory := by
  obtain ⟨n', hn', hlike⟩ := h.kept p _ hp
  cases hlike
  exact hn'

theorem link (h : Quiet away d d') {p : Place} {target : Path} (hp : d.node? p = some (.link target)) :
    d'.node? p = some (.link target) := by
  obtain ⟨n', hn', hlike⟩ := h.kept p _ hp
  cases hlike
  exact hn'

theorem start (h : Quiet away d d') (p : Path) : d'.start p = d.start p := by
  rw [Disk.start, Disk.start, h.cwd]

theorem leads (h : Quiet away d d') {follow : Bool} {links : Nat} {place q : Place} {rest : List Bytes}
    {n : Node} (hl : d.Leads follow links place rest (.node q n)) :
    ∃ n', d'.Leads follow links place rest (.node q n') ∧ n.Like n' := by
  obtain ⟨n', hn', hlike⟩ := h.kept q n hl.node?_place
  exact ⟨n', hl.keeps (fun _ => h.directory) (fun _ _ => h.link) hn' hlike.link_iff, hlike⟩

theorem put {place : Place} {n : Node} (hplace : place ≠ []) (haway : ¬ away place)
    (hlink : ∀ target, n ≠ .link target) (hold : ∀ old, d.node? place = some old → old.Like n) :
    Quiet away d (d.put place n) where
  same p hp := by
    rw [node?_put d hplace, if_neg]
    rintro rfl
    exact haway hp
  kept p old hp := by
    rw [node?_put d hplace]
    by_cases h : p = place
    · subst h
      exact ⟨n, if_pos rfl, hold old hp⟩
    · rw [if_neg h]
      exact ⟨old, hp, .same⟩
  links p target hp := by
    rw [node?_put d hplace] at hp
    split at hp
    · cases hp
      exact absurd rfl (hlink target)
    · exact hp
  cwd := cwd_put d place n

theorem of_nodes (h : Quiet away d d') (hnodes : d''.nodes = d'.nodes) (hcwd : d''.cwd = d'.cwd) :
    Quiet away d d'' := by
  have hnode : ∀ p, d''.node? p = d'.node? p := fun p => by rw [node?, node?, hnodes]
  exact ⟨fun p hp => (hnode p).trans (h.same p hp), fun p n hn => by rw [hnode]; exact h.kept p n hn,
    fun p t ht => h.links p t (by rw [← hnode]; exact ht), hcwd.trans h.cwd⟩

end Quiet

/-! ## Changes at paths that avoid the places -/

/-- The path leads to none of the places, nor will it after changes away from them. -/
def Avoids (d : Disk) (away : Place → Prop) (p : Path) : Prop :=
  ∀ d', Quiet away d d' → ∀ follow f, d'.find follow p = .ok f → ¬ away f.place

theorem Avoids.of_quiet {p : Path} (h : d.Avoids away p) (hq : Quiet away d d') : d'.Avoids away p :=
  fun d'' hq' => h d'' (hq.trans hq')

theorem Avoids.not_away {p : Path} (h : d.Avoids away p) {follow : Bool} {f : Found}
    (hf : d.find follow p = .ok f) : ¬ away f.place :=
  h d (.refl away d) follow f hf

theorem quiet_mkdir {p : Path} (hp : d.Avoids away p) (hmade : d.mkdir p = .ok d') : Quiet away d d' := by
  unfold mkdir at hmade
  split at hmade
  · rename_i place asDirectory hf
    cases hmade
    have hvacant : d.node? place = none := node?_of_find hf
    refine .put (ne_nil_of_not_directory hvacant (by simp)) (hp.not_away hf)
      (fun t ht => by cases ht) fun old hold => ?_
    rw [hvacant] at hold
    cases hold
  · cases hmade
  · cases hmade

theorem quiet_putFile {p : Path} (hp : d.Avoids away p) {f : Found} (hf : d.find true p = .ok f)
    (hfile : ∀ n, f.node? = some n → ∃ content time, n = .file content time) (content : Bytes) :
    Quiet away d (d.putFile f.place content) := by
  have hnode := node?_of_find hf
  have hput : Quiet away d (d.put f.place (.file content d.clock)) := by
    refine .put (ne_nil_of_not_directory hnode ?_) (hp.not_away hf) (fun t ht => by cases ht) ?_
    · intro hdir
      obtain ⟨old, time, heq⟩ := hfile _ hdir
      cases heq
    · intro old hold
      obtain ⟨content', time, rfl⟩ := hfile old (hnode ▸ hold)
      exact .file
  exact hput.of_nodes rfl rfl

theorem quiet_store {p : Path} (hp : d.Avoids away p) {content : Bytes}
    (hstored : d.store p content = .ok d') : Quiet away d d' := by
  unfold store at hstored
  split at hstored
  · rename_i hf
    cases hstored
    exact quiet_putFile hp hf (fun n hn => by cases hn; exact ⟨_, _, rfl⟩) content
  · rename_i hf
    cases hstored
    exact quiet_putFile hp hf (fun n hn => by cases hn) content
  · cases hstored
  · cases hstored

theorem quiet_append {p : Path} (hp : d.Avoids away p) {content : Bytes}
    (hadded : d.append p content = .ok d') : Quiet away d d' := by
  unfold append at hadded
  split at hadded
  · rename_i hf
    cases hadded
    exact quiet_putFile hp hf (fun n hn => by cases hn; exact ⟨_, _, rfl⟩) _
  · rename_i hf
    cases hadded
    exact quiet_putFile hp hf (fun n hn => by cases hn) content
  · cases hadded
  · cases hadded

theorem quiet_ensure {paths : List Path} (hpaths : ∀ p ∈ paths, d.Avoids away p) :
    Quiet away d (ensure paths d).1 := by
  induction paths with
  | nil => exact .refl away d
  | cons p outer ih =>
    have houter := ih fun q hq => hpaths q (List.mem_cons_of_mem p hq)
    rw [ensure]
    split
    · exact .refl away d
    · exact .refl away d
    split
    · rename_i heq
      rw [heq] at houter
      exact houter
    rename_i heq
    rw [heq] at houter
    split
    · rename_i hmade
      exact houter.trans (quiet_mkdir ((hpaths p List.mem_cons_self).of_quiet houter) hmade)
    · split <;> exact houter

/-- A path that has no components of its own, such as those above `p`. -/
def Within (q p : Path) : Prop :=
  ∀ c ∈ Path.components q, c ∈ Path.components p ∨ c = [] ∨ c = Path.dot

theorem Within.refl (p : Path) : Within p p := fun _ hc => .inl hc

theorem within_of_mem_parentsFrom {passed s p : Bytes} (hp : p ∈ parentsFrom passed s) :
    Within p (passed.reverse ++ s) := by
  induction s generalizing passed with
  | nil => cases hp
  | cons b s ih =>
    have hmore : p ∈ parentsFrom (b :: passed) s → Within p (passed.reverse ++ b :: s) := by
      intro hmem
      have hin := ih hmem
      rw [List.reverse_cons, List.append_assoc] at hin
      exact hin
    rw [parentsFrom.eq_def] at hp
    simp only at hp
    split at hp
    · rename_i front
      split at hp
      · rcases List.mem_cons.1 hp with rfl | hmem
        · intro c hc
          rw [List.reverse_cons, List.append_assoc, List.singleton_append]
          show c ∈ Path.components (front.reverse ++ Bytes.slash :: b :: s) ∨ _
          rw [Path.components_append_slash]
          exact .inl (List.mem_append_left _ hc)
        · exact hmore hmem
      · exact hmore hp
    · exact hmore hp

theorem quiet_mkdirAll {p : Path} (h : ∀ q, Within q p → d.Avoids away q) :
    Quiet away d (d.mkdirAll p).1 := by
  refine quiet_ensure fun q hq => ?_
  rcases List.mem_cons.1 hq with rfl | hq
  · exact h _ (.refl _)
  · exact h q (within_of_mem_parentsFrom (List.mem_reverse.1 hq))

theorem Within.of_dir {q p : Path} (h : Within q (Path.dir p)) : Within q p := by
  intro c hc
  rcases h c hc with hc | hc
  · exact Path.mem_components_dir hc
  · exact .inr hc

theorem quiet_appendLog {p : Path} (h : ∀ q, Within q p → d.Avoids away q) (line : Bytes) :
    Quiet away d (appendLog p line d) := by
  have hself := h p (.refl p)
  unfold appendLog
  split
  · split
    · rename_i hadded
      exact quiet_append hself hadded
    · exact .refl away d
  · have hall := quiet_mkdirAll fun q hq => h q (Within.of_dir hq)
    split
    · rename_i heq
      rw [heq] at hall
      split
      · rename_i hstored
        exact hall.trans (quiet_store (hself.of_quiet hall) hstored)
      · exact hall
    · rename_i heq
      rw [heq] at hall
      exact hall

/-! ## Places with a name -/

/-- The places with the name `name` hold what `own` says, and no link and no working directory mentions it. -/
structure Holds (d : Disk) (name : Bytes) (own : Place → Option Node) : Prop where
  places : ∀ p, name ∈ p → d.node? p = own p
  links : ∀ p target, d.node? p = some (.link target) → name ∉ Path.components target
  cwd : name ∉ d.cwd

variable {name : Bytes} {own : Place → Option Node}

theorem Holds.of_quiet (h : Holds d name own) (hq : Quiet (name ∈ ·) d d') : Holds d' name own where
  places p hp := (hq.same p hp).trans (h.places p hp)
  links p target ht := h.links p target (hq.links p target ht)
  cwd := hq.cwd ▸ h.cwd

theorem Holds.avoids (h : Holds d name own) {p : Path} (hp : name ∉ Path.components p) :
    d.Avoids (name ∈ ·) p := by
  intro d' hq follow f hf
  have h' := h.of_quiet hq
  obtain ⟨-, hleads⟩ := find_eq_ok_iff.1 hf
  refine hleads.not_mem h'.links ?_ hp
  rw [start]
  split
  · exact List.not_mem_nil
  · exact h'.cwd

theorem Within.not_mem {q p : Path} (h : Within q p) (hname : Path.Plain name)
    (hp : name ∉ Path.components p) : name ∉ Path.components q := by
  intro hmem
  rcases h name hmem with hmem | hnil | hdot
  · exact hp hmem
  · exact hname.ne_nil hnil
  · exact hname.ne_dot hdot

end Disk

end ShaderForge
