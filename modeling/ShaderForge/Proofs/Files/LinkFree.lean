import Mathlib.Data.List.Induction
import ShaderForge.Proofs.Files.Listing
import ShaderForge.Proofs.Files.Storing

/-!
# ShaderForge.Proofs.Files.LinkFree

Paths whose clean spelling leads to the same directory.

* `Disk.spot`         — where components lead when no link is in the way.
* `Disk.spot_cleaned` — cleaning keeps the spot, and comes through no others on the way.
* `Disk.Leads.dropDots` — a way that nowhere leads up stays the same when it is cleaned, links or not.
* `Disk.Direct`, `Disk.Direct.place_eq` — one of the two holds of a path, so cleaning does not turn it elsewhere.
* `Disk.Direct.find_join` — a name in the directory that such a path leads to.
* `Disk.sprouts_mkdirAll`, `Disk.find_of_mkdirAll` — making directories on such a path, or on any other.
* `Disk.Bare`, `Disk.Bare.store` — a file that is written to a directory without links stands there.
* `Disk.Filled`, `Disk.Confined` — trees that differ by files of one directory.
-/

namespace ShaderForge

namespace Disk

variable {d d' : Disk} {place : Place} {rest : List Bytes} {c : Bytes}

/-! ## Spots -/

/-- Where a component leads from a place, if no link stands there. -/
def stride (place : Place) (c : Bytes) : Place :=
  if c = [] || c = Path.dot then place else if c = Path.dotDot then place.dropLast else place ++ [c]

/-- Where components lead from a place, if no link is in the way. -/
def spot (place : Place) (cs : List Bytes) : Place := cs.foldl stride place

theorem stride_stay (place : Place) (hc : c = [] ∨ c = Path.dot) : stride place c = place := by
  rw [stride, if_pos (by simpa using hc)]

theorem stride_dotDot (place : Place) : stride place Path.dotDot = place.dropLast := by
  rw [stride, if_neg (by decide), if_pos rfl]

theorem stride_name (place : Place) (hc : c ≠ [] ∧ c ≠ Path.dot) (hup : c ≠ Path.dotDot) :
    stride place c = place ++ [c] := by
  rw [stride, if_neg (by simpa using hc), if_neg hup]

theorem spot_nil (place : Place) : spot place [] = place := rfl

theorem spot_cons (place : Place) (c : Bytes) (cs : List Bytes) : spot place (c :: cs) = spot (stride place c) cs := rfl

theorem spot_concat (place : Place) (cs : List Bytes) (c : Bytes) :
    spot place (cs ++ [c]) = stride (spot place cs) c := by
  rw [spot, List.foldl_append]
  rfl

theorem cleaned_snoc (rooted : Bool) (cs : List Bytes) (c : Bytes) :
    Path.cleaned rooted (cs ++ [c]) = (Path.cleanStep rooted (Path.cleaned rooted cs).reverse c).reverse := by
  rw [Path.cleaned, Path.cleaned, List.foldl_append, List.reverse_reverse]
  rfl

/-- One component more is cleaned away, or takes the last one with it, or is added. -/
theorem cleaned_concat (rooted : Bool) (place : Place) (hplace : rooted = true → place = []) (cs : List Bytes)
    (c : Bytes) (ih : spot place (Path.cleaned rooted cs) = spot place cs) :
    spot place (Path.cleaned rooted (cs ++ [c])) = spot place (cs ++ [c]) ∧
      (Path.cleaned rooted (cs ++ [c]) <+: Path.cleaned rooted cs ∨
        Path.cleaned rooted (cs ++ [c]) = Path.cleaned rooted cs ++ [c]) := by
  have hstep := cleaned_snoc rooted cs c
  unfold Path.cleanStep at hstep
  have hadd : (Path.cleaned rooted cs ++ [c]).foldl stride place = spot place (cs ++ [c]) := by
    rw [← spot, spot_concat, ih, spot_concat]
  by_cases hstay : c = [] ∨ c = Path.dot
  · have hsame : Path.cleaned rooted (cs ++ [c]) = Path.cleaned rooted cs := by
      rw [hstep, if_pos (by simpa using hstay), List.reverse_reverse]
    rw [hsame, spot_concat, stride_stay _ hstay]
    exact ⟨ih, .inl List.prefix_rfl⟩
  rw [if_neg (by simpa using hstay)] at hstep
  by_cases hup : c = Path.dotDot
  · subst hup
    rw [if_pos rfl] at hstep
    rcases List.eq_nil_or_concat (Path.cleaned rooted cs) with hnil | ⟨front, top, htop⟩
    · rw [hnil, List.reverse_nil] at hstep
      dsimp only at hstep
      rw [hnil, spot_nil] at ih
      cases rooted with
      | true =>
        rw [hstep, spot_concat, ← ih, stride_dotDot, hplace rfl]
        exact ⟨rfl, .inl (by simp)⟩
      | false =>
        rw [hnil] at hadd ⊢
        have hone : Path.cleaned false (cs ++ [Path.dotDot]) = [] ++ [Path.dotDot] := hstep
        rw [hone]
        exact ⟨hadd, .inr rfl⟩
    · rw [List.concat_eq_append] at htop
      rw [htop, List.reverse_append] at hstep
      change _ = List.reverse (if top = Path.dotDot then _ else _) at hstep
      by_cases htopUp : top = Path.dotDot
      · have hmore : Path.cleaned rooted (cs ++ [Path.dotDot]) = Path.cleaned rooted cs ++ [Path.dotDot] := by
          rw [hstep, if_pos htopUp, htop]
          simp
        rw [hmore]
        exact ⟨hadd, .inr rfl⟩
      · have hless : Path.cleaned rooted (cs ++ [Path.dotDot]) = front := by
          rw [hstep, if_neg htopUp]
          simp
        have hnamed : top ≠ [] ∧ top ≠ Path.dot := Path.dots_of_mem_cleaned (by rw [htop]; simp)
        rw [htop, spot_concat, stride_name _ hnamed htopUp] at ih
        rw [hless, spot_concat, ← ih, stride_dotDot, List.dropLast_concat, htop]
        exact ⟨rfl, .inl (List.prefix_append _ _)⟩
  · rw [if_neg hup] at hstep
    have hmore : Path.cleaned rooted (cs ++ [c]) = Path.cleaned rooted cs ++ [c] := by
      rw [hstep, List.reverse_cons, List.reverse_reverse]
    rw [hmore]
    exact ⟨hadd, .inr rfl⟩

theorem spot_cleaned (rooted : Bool) (place : Place) (hplace : rooted = true → place = []) (cs : List Bytes) :
    spot place (Path.cleaned rooted cs) = spot place cs ∧
      ∀ front, front <+: Path.cleaned rooted cs → ∃ front', front' <+: cs ∧ spot place front' = spot place front := by
  induction cs using List.reverseRecOn with
  | nil => exact ⟨rfl, fun front hfront => ⟨front, hfront, rfl⟩⟩
  | append_singleton cs c ih =>
    obtain ⟨hend, hway⟩ := cleaned_concat rooted place hplace cs c ih.1
    have hbefore : ∀ front, front <+: Path.cleaned rooted cs →
        ∃ front', front' <+: cs ++ [c] ∧ spot place front' = spot place front := by
      intro front hfront
      obtain ⟨front', hfront', heq⟩ := ih.2 front hfront
      exact ⟨front', hfront'.trans (List.prefix_append _ _), heq⟩
    refine ⟨hend, fun front hfront => ?_⟩
    rcases hway with hless | hmore
    · exact hbefore front (hfront.trans hless)
    · rw [hmore] at hfront
      rcases List.prefix_concat_iff.1 hfront with rfl | hfront
      · exact ⟨cs ++ [c], List.prefix_rfl, by rw [← hmore, hend]⟩
      · exact hbefore front hfront

/-- No link stands on the way along the components. -/
def Unlinked (d : Disk) (place : Place) (cs : List Bytes) : Prop :=
  ∀ front, front <+: cs → ∀ target, d.node? (spot place front) ≠ some (.link target)

theorem Unlinked.tail (h : d.Unlinked place (c :: rest)) : d.Unlinked (stride place c) rest :=
  fun front hfront => h (c :: front) (List.cons_prefix_cons.2 ⟨rfl, hfront⟩)

theorem Unlinked.head (h : d.Unlinked place (c :: rest)) (target : Path) :
    d.node? (stride place c) ≠ some (.link target) :=
  h [c] (List.cons_prefix_cons.2 ⟨rfl, List.nil_prefix⟩) target

theorem Unlinked.cleaned {rooted : Bool} (hplace : rooted = true → place = []) {cs : List Bytes}
    (h : d.Unlinked place cs) : d.Unlinked place (Path.cleaned rooted cs) := by
  intro front hfront
  obtain ⟨front', hfront', heq⟩ := (spot_cleaned rooted place hplace cs).2 front hfront
  exact heq ▸ h front' hfront'

theorem Leads.place_eq_spot {follow : Bool} {links : Nat} {f : Found} (h : d.Leads follow links place rest f)
    (hfree : d.Unlinked place rest) : f.place = spot place rest := by
  have hstays : ∀ (q : Place) (cs : List Bytes), (∀ e ∈ cs, e = []) → spot q cs = q := by
    intro q cs hcs
    induction cs with
    | nil => rfl
    | cons e cs ih =>
      rw [spot_cons, stride_stay _ (.inl (hcs e List.mem_cons_self))]
      exact ih fun b hb => hcs b (List.mem_cons_of_mem _ hb)
  have hname : ∀ {q : Place} {e : Bytes}, Names e → stride q e = q ++ [e] :=
    fun he => stride_name _ ⟨he.ne_nil, he.ne_dot⟩ he.ne_dotDot
  induction h with
  | here => rfl
  | stay _ hc _ ih =>
    have htail := hfree.tail
    rw [stride_stay _ hc] at htail
    rw [spot_cons, stride_stay _ hc]
    exact ih htail
  | up _ _ ih =>
    have htail := hfree.tail
    rw [stride_dotDot] at htail
    rw [spot_cons, stride_dotDot]
    exact ih htail
  | down _ hc _ _ _ ih =>
    have htail := hfree.tail
    rw [hname hc] at htail
    rw [spot_cons, hname hc]
    exact ih htail
  | jump _ hc hn _ _ _ => exact absurd hn (hname hc ▸ hfree.head _)
  | link _ hc hn _ => exact absurd hn (hname hc ▸ hfree.head _)
  | vacant _ hc _ hrest =>
    rw [spot_cons, hname hc]
    exact (hstays _ _ hrest).symm

/-! ## Ways that nowhere lead up -/

/-- Components that do not stay where they are. -/
def moving (cs : List Bytes) : List Bytes := cs.filter fun c => c ≠ [] && c ≠ Path.dot

theorem cleaned_append_of_not_mem (rooted : Bool) (cs : List Bytes) {bs : List Bytes} (h : Path.dotDot ∉ bs) :
    Path.cleaned rooted (cs ++ bs) = Path.cleaned rooted cs ++ moving bs := by
  induction bs using List.reverseRecOn with
  | nil => simp [moving]
  | append_singleton bs c ih =>
    rw [List.mem_append, not_or, List.mem_singleton] at h
    rw [← List.append_assoc, cleaned_snoc, ih h.1, moving, moving, List.filter_append]
    unfold Path.cleanStep
    by_cases hstay : c = [] ∨ c = Path.dot
    · rw [if_pos (by simpa using hstay), List.reverse_reverse]
      rcases hstay with rfl | rfl <;> simp
    · rw [not_or] at hstay
      rw [if_neg (by simpa using hstay), if_neg (Ne.symm h.2), List.reverse_cons, List.reverse_reverse]
      simp [hstay.1, hstay.2]

/-- A way to a directory may leave out the components that stay where they are. -/
theorem Leads.dropDots {links : Nat} {P : Place} {a : List Bytes}
    (h : d.Leads true links place (a ++ rest) (.node P .directory)) :
    d.Leads true links place (a ++ moving rest) (.node P .directory) := by
  generalize hall : a ++ rest = all at h
  generalize hf : Found.node P .directory = f at h
  have hkeep : ∀ {e : Bytes} {cs : List Bytes}, e ≠ [] → e ≠ Path.dot → moving (e :: cs) = e :: moving cs :=
    fun hne hdot => by simp [moving, hne, hdot]
  -- a link puts its target before what is left, so the part that is kept whole varies
  induction h generalizing a rest with
  | here hn =>
    obtain ⟨rfl, rfl⟩ := List.append_eq_nil_iff.1 hall
    exact .here hn
  | @stay links place c more f hdir hc _ ih =>
    cases a with
    | nil =>
      subst hall
      have hdrop : moving (c :: more) = moving more := by rcases hc with rfl | rfl <;> simp [moving]
      rw [List.nil_append, hdrop]
      exact @ih more [] rfl hf
    | cons b a =>
      cases hall
      exact .stay hdir hc (ih rfl hf)
  | @up links place more f hdir _ ih =>
    cases a with
    | nil =>
      subst hall
      rw [List.nil_append, hkeep (by decide) (by decide)]
      exact .up hdir (@ih more [] rfl hf)
    | cons b a =>
      cases hall
      exact .up hdir (ih rfl hf)
  | @down links place c more f n hdir hc hn hlink _ ih =>
    cases a with
    | nil =>
      subst hall
      rw [List.nil_append, hkeep hc.ne_nil hc.ne_dot]
      exact .down hdir hc hn hlink (@ih more [] rfl hf)
    | cons b a =>
      cases hall
      exact .down hdir hc hn hlink (ih rfl hf)
  | @jump links place c more f target hdir hc hn _ _ ih =>
    cases a with
    | nil =>
      subst hall
      rw [List.nil_append, hkeep hc.ne_nil hc.ne_dot]
      exact .jump hdir hc hn (.inr rfl) (ih rfl hf)
    | cons b a =>
      cases hall
      have hrest := @ih rest (Path.components target ++ a) (List.append_assoc _ _ _) hf
      rw [List.append_assoc] at hrest
      exact .jump hdir hc hn (.inr rfl) hrest
  | link _ _ _ hfollow => cases hfollow
  | vacant => cases hf

/-! ## Direct paths -/

/-- Cleaning does not turn the path elsewhere: no link stands on its way, or it nowhere leads up. -/
def Direct (d : Disk) (p : Path) : Prop :=
  d.Unlinked (d.start p) (Path.components p) ∨ Path.dotDot ∉ Path.components p

theorem start_eq_nil (d : Disk) {p : Path} (h : Path.isAbsolute p = true) : d.start p = [] := if_pos h

/-- The clean components of a direct path lead to the same directory, if to any. -/
theorem Direct.place_eq {p : Path} {P Q : Place} (h : d.Direct p) (hp : d.find true p = .ok (.node P .directory))
    (hq : d.Leads true maxLinks (d.start p) (Path.cleanComponents p) (.node Q .directory)) : Q = P := by
  obtain ⟨-, hleads⟩ := find_eq_ok_iff.1 hp
  have hstart : Path.isAbsolute p = true → d.start p = [] := d.start_eq_nil
  rcases h with hfree | hup
  · calc Q = spot (d.start p) (Path.cleaned (Path.isAbsolute p) (Path.components p)) :=
          hq.place_eq_spot (hfree.cleaned hstart)
      _ = spot (d.start p) (Path.components p) := (spot_cleaned _ _ hstart _).1
      _ = P := (hleads.place_eq_spot hfree).symm
  · have hclean : Path.cleanComponents p = moving (Path.components p) := cleaned_append_of_not_mem _ [] hup
    rw [hclean] at hq
    cases hq.unique (Leads.dropDots (a := []) hleads)
    rfl

theorem Direct.of_links {p : Path} (h : d.Direct p) (hcwd : d'.cwd = d.cwd)
    (hlinks : ∀ q target, d'.node? q = some (.link target) → d.node? q = some (.link target)) : d'.Direct p := by
  refine h.imp (fun hfree front hfront target htarget => ?_) id
  rw [start, hcwd, ← start] at htarget
  exact hfree front hfront target (hlinks _ _ htarget)

theorem Direct.store {p p' : Path} {content : Bytes} (h : d.Direct p) (hstored : d.store p' content = .ok d') :
    d'.Direct p :=
  h.of_links (cwd_of_store hstored) (links_of_store hstored)

theorem Leads.place_of_name {follow : Bool} {links : Nat} {P : Place} {x : Bytes} {f : Found} (hx : Path.Plain x)
    (hlink : ∀ target, d.node? (P ++ [x]) ≠ some (.link target)) (h : d.Leads follow links P [x] f) :
    f.place = P ++ [x] := by
  have hfree : d.Unlinked P [x] := by
    have hdir := h.directory_of_cons
    intro front hfront target htarget
    rcases List.prefix_cons_iff.1 hfront with rfl | ⟨front', rfl, hnil⟩
    · rw [spot_nil, hdir] at htarget
      cases htarget
    · rw [List.prefix_nil.1 hnil, spot_cons, spot_nil, stride_name _ ⟨hx.ne_nil, hx.ne_dot⟩ hx.ne_dotDot] at htarget
      exact hlink target htarget
  rw [h.place_eq_spot hfree, spot_cons, spot_nil, stride_name _ ⟨hx.ne_nil, hx.ne_dot⟩ hx.ne_dotDot]

/-- A plain name joined to a path, taken apart. -/
def joined (dir : Path) {x : Bytes} (hx : Path.Plain x) : OutputPath where
  rooted := Path.isAbsolute dir
  above := Path.cleanComponents dir
  base := x
  clean := Path.cleaned_cleaned _ _
  no_slash _ hc := Path.no_slash_of_mem_components (Path.mem_of_mem_cleaned hc)
  plain := hx

theorem path_joined (dir : Path) {x : Bytes} (hx : Path.Plain x) : (joined dir hx).path = Path.join dir x :=
  (Path.join_ofComponents dir (List.forall_mem_singleton.2 hx)).symm

theorem lead_joined (dir : Path) {x : Bytes} (hx : Path.Plain x) : (joined dir hx).lead (joined dir hx).above.length =
    (if Path.isAbsolute dir then [[]] else []) ++ Path.cleanComponents dir := by
  rw [OutputPath.lead, List.take_length]
  rfl

/-- The last step along a name joined to a direct path starts from the directory that the path leads to. -/
theorem Direct.leads_join {dir : Path} {P : Place} {x : Bytes} {f : Found} (h : d.Direct dir)
    (hdir : d.find true dir = .ok (.node P .directory)) (hx : Path.Plain x)
    (hf : d.find true (Path.join dir x) = .ok f) : ∃ links, d.Leads true links P [x] f := by
  rw [← path_joined dir hx] at hf
  have hway : d.Leads true maxLinks (d.start dir) (Path.cleanComponents dir ++ [x]) f := by
    have hleads : d.Leads true maxLinks (d.start dir) _ f := ((joined dir hx).find_path.1 hf).2
    rw [lead_joined, List.append_assoc] at hleads
    split at hleads
    · exact (OutputPath.leads_dot (.inl rfl) (by simp)).1 hleads
    · exact hleads
  obtain ⟨Q, links, hclean, hlast⟩ := hway.split ⟨x, List.mem_singleton_self x, hx.ne_nil⟩
  obtain rfl := h.place_eq hdir hclean
  exact ⟨links, hlast⟩

/-- A name joined to a direct path leads into the directory that the path leads to. -/
theorem Direct.find_join {dir : Path} {P : Place} {x : Bytes} {f : Found} (h : d.Direct dir)
    (hdir : d.find true dir = .ok (.node P .directory)) (hx : Path.Plain x)
    (hlink : ∀ target, d.node? (P ++ [x]) ≠ some (.link target)) (hf : d.find true (Path.join dir x) = .ok f) :
    f.place = P ++ [x] := by
  obtain ⟨_, hlast⟩ := h.leads_join hdir hx hf
  exact hlast.place_of_name hx hlink

/-! ## Making directories -/

theorem Leads.put {links : Nat} {s q : Place} {asDirectory : Bool}
    (h : d.Leads false links s rest (.vacant q asDirectory)) :
    (d.put q .directory).Leads true links s rest (.node q .directory) := by
  obtain ⟨P, c, rfl, -, -⟩ := h.parent
  have hvacant : d.node? (P ++ [c]) = none := h.node?_place
  have hne : P ++ [c] ≠ [] := by simp
  have hnode := node?_put d hne .directory
  have hkeeps : ∀ p n, d.node? p = some n → (d.put (P ++ [c]) .directory).node? p = some n := by
    intro p n hp
    rw [hnode, if_neg, hp]
    rintro rfl
    rw [hvacant] at hp
    cases hp
  have hself : (d.put (P ++ [c]) .directory).node? (P ++ [c]) = some .directory := by rw [hnode, if_pos rfl]
  generalize hf : Found.vacant (P ++ [c]) asDirectory = f at h
  induction h with
  | here | link => cases hf
  | stay hdir hc _ ih => exact .stay (hkeeps _ _ hdir) hc (ih hf)
  | up hdir _ ih => exact .up (hkeeps _ _ hdir) (ih hf)
  | down hdir hc hn hlink _ ih => exact .down (hkeeps _ _ hdir) hc (hkeeps _ _ hn) hlink (ih hf)
  | jump hdir hc hn _ _ ih => exact .jump (hkeeps _ _ hdir) hc (hkeeps _ _ hn) (.inr rfl) (ih hf)
  | @vacant links place e rest hdir hc hn hrest =>
    rw [Found.vacant.injEq] at hf
    rw [hf.1] at hself hkeeps ⊢
    clear hf
    refine .down (hkeeps _ _ hdir) hc hself (by simp) ?_
    clear hn hdir
    induction rest with
    | nil => exact .here hself
    | cons e rest ih =>
      exact .stay hself (.inl (hrest e List.mem_cons_self)) (ih fun b hb => hrest b (List.mem_cons_of_mem _ hb))

theorem find_of_mkdir {p : Path} (h : d.mkdir p = .ok d') : ∃ P, d'.find true p = .ok (.node P .directory) := by
  obtain ⟨P, asDirectory, hf, rfl⟩ := mkdir_eq_ok h
  obtain ⟨hadm, hleads⟩ := find_eq_ok_iff.1 hf
  refine ⟨P, find_eq_ok_iff.2 ⟨hadm, ?_⟩⟩
  rw [start, cwd_put, ← start]
  exact hleads.put

/-- Directories that are made appear where nothing was. -/
structure Sprouts (d d' : Disk) : Prop where
  node : ∀ q, d'.node? q = d.node? q ∨ (d.node? q = none ∧ d'.node? q = some .directory)
  cwd : d'.cwd = d.cwd

theorem Sprouts.refl (d : Disk) : Sprouts d d := ⟨fun _ => .inl rfl, rfl⟩

theorem Sprouts.links (h : Sprouts d d') {q : Place} {target : Path} (hq : d'.node? q = some (.link target)) :
    d.node? q = some (.link target) := by
  rcases h.node q with heq | ⟨-, hdir⟩
  · rwa [← heq]
  · rw [hdir] at hq
    cases hq

theorem Sprouts.mkdir {d'' : Disk} {p : Path} (h : Sprouts d d') (hmade : d'.mkdir p = .ok d'') : Sprouts d d'' := by
  obtain ⟨P, asDirectory, hf, rfl⟩ := mkdir_eq_ok hmade
  obtain ⟨Q, c, rfl, -, -⟩ := parent_of_find hf
  have hvacant : d'.node? (Q ++ [c]) = none := node?_of_find hf
  refine ⟨fun q => ?_, (cwd_put _ _ _).trans h.cwd⟩
  rw [node?_put d' (by simp)]
  split
  · rename_i heq
    refine .inr ⟨?_, rfl⟩
    rcases h.node q with hq | ⟨hq, -⟩
    · rw [← hq, heq, hvacant]
    · exact hq
  · exact h.node q

theorem sprouts_ensure (d : Disk) (paths : List Path) : Sprouts d (ensure paths d).1 := by
  induction paths with
  | nil => exact .refl d
  | cons p outer ih =>
    rw [ensure]
    split
    · exact .refl d
    · exact .refl d
    split
    · rename_i heq
      rwa [heq] at ih
    rename_i heq
    rw [heq] at ih
    split
    · rename_i hmade
      exact ih.mkdir hmade
    · split <;> exact ih

theorem sprouts_mkdirAll (d : Disk) (p : Path) : Sprouts d (d.mkdirAll p).1 := sprouts_ensure d _

theorem find_of_mkdirAll {p : Path} (h : (d.mkdirAll p).2 = .ok ()) :
    ∃ P, (d.mkdirAll p).1.find true p = .ok (.node P .directory) := by
  rw [mkdirAll] at h ⊢
  generalize (parentsFrom [] p).reverse = outer at h ⊢
  rw [ensure] at h ⊢
  cases hstat : d.stat p with
  | ok n =>
    rw [hstat] at h
    cases n with
    | directory => exact find_of_stat hstat
    | file | link => cases h
  | error e =>
    rw [hstat] at h
    dsimp only at h ⊢
    generalize ensure outer d = tried at h ⊢
    obtain ⟨made, outcome⟩ := tried
    cases outcome with
    | error e => cases h
    | ok =>
      dsimp only at h ⊢
      cases hmkdir : made.mkdir p with
      | ok made' => exact find_of_mkdir hmkdir
      | error e =>
        rw [hmkdir] at h
        dsimp only at h ⊢
        split at h
        · rename_i hlstat
          obtain ⟨P, hP⟩ := find_of_lstat hlstat
          exact ⟨P, find_follow hP⟩
        · cases h

/-! ## Directories without links -/

/-- A direct path leads to the place of a directory that holds no link. -/
structure Bare (dir : Path) (P : Place) (d : Disk) : Prop where
  direct : d.Direct dir
  directory : d.find true dir = .ok (.node P .directory)
  unlinked : ∀ c target, d.node? (P ++ [c]) ≠ some (.link target)

/-- Between the trees, files were written under names of a directory, and directories made where nothing was. -/
def Filled (P : Place) (d d' : Disk) : Prop :=
  ∀ q, d'.node? q = d.node? q ∨ (d.node? q = none ∧ d'.node? q = some .directory) ∨
    ((∃ c, q = P ++ [c]) ∧ (d.node? q = none ∨ ∃ content time, d.node? q = some (.file content time)) ∧
      ∃ content time, d'.node? q = some (.file content time))

variable {d'' : Disk} {dir : Path} {P : Place}

theorem Filled.refl (P : Place) (d : Disk) : Filled P d d := fun _ => .inl rfl

theorem Sprouts.filled (h : Sprouts d d') (P : Place) : Filled P d d' := fun q => (h.node q).imp id .inl

theorem Filled.trans (h : Filled P d d') (h' : Filled P d' d'') : Filled P d d'' := by
  intro q
  rcases h' q with hsame | ⟨hnone, hdir⟩ | ⟨hplace, hbefore, hfile⟩
  · rw [hsame]
    exact h q
  · rcases h q with hsame' | ⟨-, hdir'⟩ | ⟨-, -, content, time, hfile'⟩
    · exact .inr (.inl ⟨hsame'.symm.trans hnone, hdir⟩)
    · rw [hdir'] at hnone
      cases hnone
    · rw [hfile'] at hnone
      cases hnone
  · refine .inr (.inr ⟨hplace, ?_, hfile⟩)
    rcases h q with hsame' | ⟨hnone, -⟩ | ⟨-, hbefore', -⟩
    · rwa [← hsame']
    · exact .inl hnone
    · exact hbefore'

/-- A file that is written under a name of the directory stands there, whatever the name. -/
theorem Bare.store (h : Bare dir P d) {x content : Bytes} (hx : Path.Plain x)
    (hstored : d.store (Path.join dir x) content = .ok d') : Bare dir P d' ∧ Filled P d d' := by
  refine ⟨⟨h.direct.store hstored, find_directory_store hstored h.directory,
    fun c target hc => h.unlinked c target (links_of_store hstored _ _ hc)⟩, fun q => ?_⟩
  obtain ⟨f, hf, hbefore, -, rfl⟩ := store_eq_ok hstored
  rw [h.direct.find_join h.directory hx (h.unlinked x) hf] at hbefore ⊢
  have hadds := adds_putFile (d := d) hbefore.ne_nil content
  by_cases hq : q = P ++ [x]
  · subst hq
    exact .inr (.inr ⟨⟨x, rfl⟩, hbefore, _, _, hadds.self⟩)
  · exact .inl (hadds.of_ne hq)

/-- Neither the way along the path nor the directory that it leads to, once it is made, has a link. Links on the way
do no harm where the path nowhere leads up. -/
structure LinkFree (d : Disk) (dir : Path) : Prop where
  way : d.Direct dir
  inside : ∀ P, (d.mkdirAll dir).1.find true dir = .ok (.node P .directory) →
    ∀ c target, d.node? (P ++ [c]) ≠ some (.link target)

theorem LinkFree.bare (h : d.LinkFree dir) (hP : (d.mkdirAll dir).1.find true dir = .ok (.node P .directory)) :
    Bare dir P (d.mkdirAll dir).1 where
  direct := h.way.of_links (sprouts_mkdirAll d dir).cwd fun _ _ => (sprouts_mkdirAll d dir).links
  directory := hP
  unlinked c target hc := h.inside P hP c target ((sprouts_mkdirAll d dir).links hc)

/-- Between the trees, each file that was made or changed is a direct child of the directory that the path leads to;
nothing else changed but for directories that were made. -/
def Confined (dir : Path) (d d' : Disk) : Prop :=
  Sprouts d d' ∨ ∃ P, d'.find true dir = .ok (.node P .directory) ∧ Filled P d d'

end Disk

end ShaderForge
