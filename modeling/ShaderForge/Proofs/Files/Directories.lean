import ShaderForge.Proofs.Files.OutputPath
import ShaderForge.Proofs.Files.Tree

/-!
# ShaderForge.Proofs.Files.Directories

Making the directories above a file.

* `Disk.Paved`         — directories made one below the other, from a place that stood already.
* `Disk.Grown`         — a tree in which nothing else is new, on the way along some components.
* `Disk.Grown.mkdir`   — one directory more.
* `OutputPath.ensure_rungs` — all of them, as far as they can be made.
* `Disk.Grown.new`     — each new directory is where a part of the path leads.
-/

namespace ShaderForge

variable {lead more rest : List Bytes} {R p P : Place} {c : Bytes} {n : Node} {follow : Bool}

namespace Disk

variable {d t t' : Disk} {s : Place}

/-! ## Trees with new directories -/

/-- Below `R`, on the way down along `more`. -/
def Between (R : Place) (more : List Bytes) (p : Place) : Prop := R <+: p ∧ p ≠ R ∧ p <+: R ++ more

/-- In `t` the components `front` and then `more` lead down from `s`: to `R`, which stood already in `d`, and on
through directories that did not. -/
structure Paved (d t : Disk) (s : Place) (front more : List Bytes) (R : Place) : Prop where
  route : d.Leads true maxLinks s front (.node R .directory)
  ne_nil : more ≠ []
  vacant : ∀ c rest, more = c :: rest → d.node? (R ++ [c]) = none
  names : ∀ c ∈ more, Names c
  new : ∀ p, Between R more p → t.node? p = some .directory
  old : ∀ p, ¬ Between R more p → t.node? p = d.node? p
  cwd : t.cwd = d.cwd

/-- A tree in which nothing is new but directories on the way along `lead`, all of which is there if any is new. -/
inductive Grown (d : Disk) (s : Place) (lead : List Bytes) (t : Disk) : Prop
  | same (h : Same d t)
  | paved {front more : List Bytes} {R : Place} (hlead : lead = front ++ more) (h : Paved d t s front more R)

theorem Grown.of_same {t' : Disk} (h : Grown d s lead t) (hsame : Same t t') : Grown d s lead t' := by
  cases h with
  | same h => exact .same (h.trans hsame)
  | paved hlead h =>
    refine .paved hlead { h with new := fun p hp => ?_, old := fun p hp => ?_, cwd := hsame.cwd.trans h.cwd }
    · exact (hsame.node p).trans (h.new p hp)
    · exact (hsame.node p).trans (h.old p hp)

theorem between_append :
    Between R (more ++ [c]) p ↔ Between R more p ∨ p = R ++ more ++ [c] := by
  unfold Between
  rw [← List.append_assoc, List.prefix_concat_iff]
  constructor
  · rintro ⟨hR, hne, hp | hp⟩
    · exact .inr hp
    · exact .inl ⟨hR, hne, hp⟩
  · rintro (⟨hR, hne, hp⟩ | rfl)
    · exact ⟨hR, hne, .inr hp⟩
    · refine ⟨?_, ?_, .inl rfl⟩
      · rw [List.append_assoc]
        exact List.prefix_append _ _
      · intro heq
        have hlen := congrArg List.length heq
        simp at hlen

theorem Between.take {i : Nat} (hi : 0 < i) (hle : i ≤ more.length) :
    Between R more (R ++ more.take i) := by
  refine ⟨List.prefix_append _ _, fun heq => ?_, (List.prefix_append_right_inj _).2 (List.take_prefix _ _)⟩
  have hlen := congrArg List.length heq
  rw [List.length_append, List.length_take] at hlen
  omega

theorem Between.exists_take (h : Between R more p) :
    ∃ i, 0 < i ∧ i ≤ more.length ∧ p = R ++ more.take i := by
  obtain ⟨⟨rest, rfl⟩, hne, hp⟩ := h
  have hrest := (List.prefix_append_right_inj R).1 hp
  refine ⟨rest.length, ?_, hrest.length_le, by rw [← List.prefix_iff_eq_take.1 hrest]⟩
  rw [List.length_pos_iff]
  rintro rfl
  simp at hne

theorem Paved.node?_between (h : d.IsTree) {front : List Bytes} (hp : Paved d t s front more R)
    (hbetween : Between R more p) : d.node? p = none := by
  obtain ⟨c, rest, rfl⟩ := List.exists_cons_of_ne_nil hp.ne_nil
  obtain ⟨i, hi, -, rfl⟩ := hbetween.exists_take
  obtain ⟨i, rfl⟩ := Nat.exists_eq_succ_of_ne_zero (Nat.ne_of_gt hi)
  refine h.node?_of_prefix (hp.vacant c rest rfl) ⟨rest.take i, ?_⟩
  simp

theorem Grown.quiet (h : d.IsTree) (hg : Grown d s lead t) :
    Quiet (fun p => d.node? p ≠ none) d t := by
  cases hg with
  | same hsame => exact ⟨fun p _ => hsame.node p, fun p n hn => ⟨n, (hsame.node p).trans hn, .same⟩,
      fun p target ht => (hsame.node p).symm.trans ht, hsame.cwd⟩
  | @paved front more R _ hp =>
    have hold : ∀ p, d.node? p ≠ none → t.node? p = d.node? p := fun p hne =>
      hp.old p fun hbetween => hne (hp.node?_between h hbetween)
    refine ⟨hold, fun p n hn => ⟨n, (hold p (by simp [hn])).trans hn, .same⟩, fun p target ht => ?_, hp.cwd⟩
    by_cases hbetween : Between R more p
    · rw [hp.new p hbetween] at ht
      cases ht
    · exact (hp.old p hbetween).symm.trans ht

theorem leads_of_directories (links : Nat) (h : ∀ i, i ≤ more.length → t.node? (R ++ more.take i) = some .directory)
    (hnames : ∀ c ∈ more, Names c) :
    t.Leads true links R more (.node (R ++ more) .directory) := by
  induction more generalizing R with
  | nil =>
    rw [List.append_nil]
    exact .here (by simpa using h 0 (Nat.le_refl _))
  | cons c more ih =>
    have hR : t.node? R = some .directory := by simpa using h 0 (Nat.zero_le _)
    have hc : t.node? (R ++ [c]) = some .directory := by simpa using h 1 (by simp)
    have hrest := ih (R := R ++ [c]) (fun i hi => by simpa using h (i + 1) (by simpa using hi))
      fun b hb => hnames b (List.mem_cons_of_mem _ hb)
    rw [List.append_assoc, List.singleton_append] at hrest
    exact .down hR (hnames c List.mem_cons_self) hc (fun target ht => by cases ht) hrest

theorem Paved.leads (h : d.IsTree) {front : List Bytes} (hp : Paved d t s front more R) {i : Nat}
    (hi : i ≤ more.length) :
    t.Leads true maxLinks s (front ++ more.take i) (.node (R ++ more.take i) .directory) := by
  obtain ⟨n, hroute, hlike⟩ := ((Grown.paved rfl hp).quiet h).leads hp.route
  cases hlike
  by_cases hzero : i = 0
  · subst hzero
    simpa using hroute
  · have hne : more.take i ≠ [] := by
      rw [Ne, List.take_eq_nil_iff, not_or]
      exact ⟨hzero, hp.ne_nil⟩
    obtain ⟨links, happend⟩ := hroute.append
    refine happend true _ _ hne (leads_of_directories links (fun j hj => ?_) fun c hc =>
      hp.names c (List.mem_of_mem_take hc))
    rw [List.take_take]
    by_cases hj0 : min j i = 0
    · rw [hj0, List.take_zero, List.append_nil]
      exact hroute.node?_place
    · exact hp.new _ (.take (Nat.pos_of_ne_zero hj0) (by omega))

theorem Grown.leads (h : d.IsTree) {front : List Bytes} (hlead : lead = front ++ more) (hp : Paved d t s front more R) :
    t.Leads true maxLinks s lead (.node (R ++ more) .directory) := by
  have hleads := hp.leads h (Nat.le_refl more.length)
  rw [List.take_length] at hleads
  rw [hlead]
  exact hleads

/-! ## One directory more -/

theorem Leads.vacant_concat {links : Nat} {q : Place} {asDirectory : Bool} (hc : c ≠ [])
    (h : t.Leads false links s (lead ++ [c]) (.vacant q asDirectory)) :
    ∃ P, t.Leads true links s lead (.node P .directory) ∧ q = P ++ [c] ∧ Names c ∧ t.node? (P ++ [c]) = none := by
  obtain ⟨P, links', hlead, hlast⟩ := h.split ⟨c, by simp, hc⟩
  refine ⟨P, hlead, ?_⟩
  cases hlast with
  | stay _ _ h => cases h
  | up _ h => cases h
  | down _ _ _ _ h => cases h
  | jump _ _ _ hpass _ => simp at hpass
  | vacant _ hnames hn _ => exact ⟨rfl, hnames, hn⟩

theorem Grown.mkdir (h : d.IsTree) (hg : Grown d s lead t)
    (hroute : t.Leads true maxLinks s lead (.node P .directory)) (hc : Names c) (hn : t.node? (P ++ [c]) = none) :
    Grown d s (lead ++ [c]) (t.put (P ++ [c]) .directory) := by
  have hnode : ∀ p, (t.put (P ++ [c]) .directory).node? p = if p = P ++ [c] then some .directory else t.node? p :=
    node?_put t (by simp) .directory
  cases hg with
  | same hsame =>
    refine .paved rfl ⟨hsame.symm.leads hroute, by simp, ?_, by simpa using hc, fun p hp => ?_, fun p hp => ?_, ?_⟩
    · intro b rest heq
      cases heq
      exact (hsame.node _).symm.trans hn
    · obtain ⟨i, hi, hle, rfl⟩ := hp.exists_take
      obtain rfl : i = 1 := by
        simp at hle
        omega
      rw [hnode]
      simp
    · rw [hnode, if_neg, hsame.node]
      rintro rfl
      exact hp (.take (i := 1) (by omega) (by simp))
    · rw [cwd_put]
      exact hsame.cwd
  | @paved front more R hlead hp =>
    cases hroute.unique (Grown.leads h hlead hp)
    have hlead' : lead ++ [c] = front ++ (more ++ [c]) := by rw [hlead, List.append_assoc]
    refine .paved hlead' ⟨hp.route, by simp, ?_, ?_, fun p hbetween => ?_, fun p hbetween => ?_, ?_⟩
    · intro b rest heq
      obtain ⟨b', rest', hmore⟩ := List.exists_cons_of_ne_nil hp.ne_nil
      rw [hmore, List.cons_append, List.cons.injEq] at heq
      rw [← heq.1]
      exact hp.vacant b' rest' hmore
    · intro b hb
      rcases List.mem_append.1 hb with hb | hb
      · exact hp.names b hb
      · rw [List.mem_singleton.1 hb]
        exact hc
    · rw [hnode]
      split
      · rfl
      · rename_i hne
        exact hp.new p ((between_append.1 hbetween).resolve_right hne)
    · rw [hnode, if_neg fun heq => hbetween (between_append.2 (.inr heq))]
      exact hp.old p fun hin => hbetween (between_append.2 (.inl hin))
    · rw [cwd_put]
      exact hp.cwd

theorem leads_mkdir (hroute : t.Leads true maxLinks s lead (.node P .directory)) (hc : Names c)
    (hn : t.node? (P ++ [c]) = none) :
    (t.put (P ++ [c]) .directory).Leads true maxLinks s (lead ++ [c]) (.node (P ++ [c]) .directory) := by
  have hquiet : Quiet (fun _ => False) t (t.put (P ++ [c]) .directory) := by
    refine .put (by simp) id (fun target ht => by cases ht) fun old hold => ?_
    rw [hn] at hold
    cases hold
  obtain ⟨n, hroute', hlike⟩ := hquiet.leads hroute
  cases hlike
  obtain ⟨links, happend⟩ := hroute'.append
  have hnew : (t.put (P ++ [c]) .directory).node? (P ++ [c]) = some .directory := by
    rw [node?_put t (by simp), if_pos rfl]
  exact happend true _ _ (by simp) (.down hroute'.node?_place hc hnew (fun target ht => by cases ht) (.here hnew))

theorem Paved.node?_below (h : d.IsTree) {front : List Bytes} (hp : Paved d t s front more R) (rest : List Bytes)
    (hrest : rest ≠ []) : t.node? (R ++ more ++ rest) = none := by
  have hout : ¬ Between R more (R ++ more ++ rest) := by
    rintro ⟨-, -, hle⟩
    have hlen := hle.length_le
    have hpos := List.length_pos_iff.2 hrest
    simp only [List.length_append] at hlen
    omega
  have hlast : d.node? (R ++ more) = none := by
    have hall := hp.node?_between h (.take (List.length_pos_iff.2 hp.ne_nil) (Nat.le_refl _))
    rwa [List.take_length] at hall
  rw [hp.old _ hout]
  exact h.node?_of_prefix hlast (List.prefix_append _ _)

/-- What stands at a path; a link is not followed. -/
def held (d : Disk) (p : Path) : Option Node :=
  match d.find false p with
  | .ok f => f.node?
  | .error _ => none

theorem held_eq_some_iff {p : Path} : d.held p = some n ↔ ∃ P, d.find false p = .ok (.node P n) := by
  unfold held
  split
  · rename_i f hf
    cases f <;> simp [hf, Found.node?]
  · rename_i hf
    simp [hf]

theorem Leads.not_node {links : Nat} {Q : Place} (hc : (c ≠ [] ∧ c ≠ Path.dot) ∧ c ≠ Path.dotDot)
    (hn : d.node? (P ++ [c]) = none) :
    ¬ d.Leads follow links P (c :: rest) (.node Q n) := by
  intro h
  cases h with
  | stay _ hc' _ => exact absurd hc' (not_or.2 hc.1)
  | up => exact hc.2 rfl
  | down _ _ hn' _ _ | jump _ _ hn' _ _ | link _ _ hn' _ =>
    rw [hn] at hn'
    cases hn'

/-- There is nothing at a place, but a directory once those on the way along a path are made: some part of the way
leads there. -/
structure MadeOn (d : Disk) (dir : Path) (p : Place) : Prop where
  vacant : d.node? p = none
  route : ∃ cs, cs <+: Path.components dir ∧
    (d.mkdirAll dir).1.Leads true maxLinks (d.start dir) cs (.node p .directory)

theorem MadeOn.node?_eq {dir : Path} (h : d.MadeOn dir p) :
    (d.mkdirAll dir).1.node? p = some .directory := by
  obtain ⟨cs, -, hleads⟩ := h.route
  exact hleads.node?_place

theorem Grown.new (h : d.IsTree) (hg : Grown d s lead t) (hp : t.node? p ≠ d.node? p) :
    d.node? p = none ∧ t.node? p = some .directory ∧
      ∃ cs, cs <+: lead ∧ t.Leads true maxLinks s cs (.node p .directory) := by
  cases hg with
  | same hsame => exact absurd (hsame.node p) hp
  | @paved front more R hlead hpaved =>
    have hbetween : Between R more p := by
      by_contra hout
      exact hp (hpaved.old p hout)
    obtain ⟨i, -, hi, rfl⟩ := hbetween.exists_take
    refine ⟨hpaved.node?_between h hbetween, hpaved.new _ hbetween, front ++ more.take i, ?_, hpaved.leads h hi⟩
    rw [hlead]
    exact (List.prefix_append_right_inj front).2 (List.take_prefix i more)

theorem Leads.followed {links : Nat} {f : Found} (hn : ∀ target, n ≠ .link target) (hf : f = .node P n)
    (h : t.Leads follow links s rest f) :
    t.Leads true links s rest f := by
  induction h with
  | here hn => exact .here hn
  | stay hdir hc _ ih => exact .stay hdir hc (ih hf)
  | up hdir _ ih => exact .up hdir (ih hf)
  | down hdir hc hn hlink _ ih => exact .down hdir hc hn hlink (ih hf)
  | jump hdir hc hn _ _ ih => exact .jump hdir hc hn (.inr rfl) (ih hf)
  | link _ _ _ _ =>
    cases hf
    exact absurd rfl (hn _)
  | vacant => cases hf

theorem find_of_inspect {p : Path} (h : d.inspect follow p = .ok (P, n)) :
    d.find follow p = .ok (.node P n) := by
  unfold inspect at h
  split at h
  · rename_i hf
    cases h
    exact hf
  · cases h
  · cases h

theorem find_of_stat {p : Path} (h : d.stat p = .ok n) : ∃ P, d.find true p = .ok (.node P n) := by
  unfold stat at h
  split at h
  · rename_i hn
    cases h
    exact ⟨_, find_of_inspect hn⟩
  · cases h

theorem find_of_lstat {p : Path} (h : d.lstat p = .ok n) : ∃ P, d.find false p = .ok (.node P n) := by
  unfold lstat at h
  split at h
  · rename_i hn
    cases h
    exact ⟨_, find_of_inspect hn⟩
  · cases h

end Disk

/-! ## All of them -/

namespace OutputPath

variable {t : OutputPath} {d d' : Disk}
variable {k : Nat}

theorem lead_succ (hk : k < t.above.length) : t.lead (k + 1) = t.lead k ++ [t.above[k]] := by
  rw [lead, lead, List.take_succ_eq_append_getElem hk, List.append_assoc]

theorem lead_eq (k : Nat) : t.lead t.above.length = t.lead k ++ t.above.drop k := by
  rw [lead, lead, List.append_assoc, List.take_length, List.take_append_drop]

theorem ne_dotDot_of_lead {front back : List Bytes} {b : Bytes} (h : t.lead t.above.length = front ++ b :: back)
    (hb : Disk.Names b) : ∀ c ∈ back, c ≠ Path.dotDot := by
  rw [lead, List.take_length] at h
  split at h
  · cases front with
    | nil =>
      cases h
      exact absurd rfl hb.ne_nil
    | cons c front => exact t.ne_dotDot_of_append (List.cons.inj h).2 hb.ne_dotDot
  · exact t.ne_dotDot_of_append h hb.ne_dotDot

theorem ne_dotDot_of_paved {s : Place} {front : List Bytes} (hp : Disk.Paved d d' s front more R)
    (h : t.lead t.above.length = front ++ more ++ rest) : ∀ c ∈ rest, c ≠ Path.dotDot := by
  obtain ⟨init, b, hmore⟩ := (List.eq_nil_or_concat more).resolve_left hp.ne_nil
  rw [List.concat_eq_append] at hmore
  have hsplit : t.lead t.above.length = (front ++ init) ++ b :: rest := by
    rw [h, hmore]
    simp
  exact ne_dotDot_of_lead hsplit (hp.names b (by simp [hmore]))

theorem take_ne_nil (hk : k < t.above.length) : t.above.take (k + 1) ≠ [] := by
  rw [Ne, List.take_eq_nil_iff, not_or]
  exact ⟨by omega, List.ne_nil_of_length_pos (by omega)⟩

/-- What making the first `k` directories comes to. -/
inductive Climbed (t : OutputPath) (d : Disk) (k : Nat) : Disk × Except FileError Unit → Prop
  | made {d' : Disk} (hgrown : Disk.Grown d (t.start d) (t.lead k) d')
      (hleads : 0 < k → Disk.Admissible (t.rung k) ∧
        ∃ P, d'.Leads true Disk.maxLinks (t.start d) (t.lead k) (.node P .directory)) :
      Climbed t d k (d', .ok ())
  | failed {d' : Disk} {e : FileError} {j : Nat} (hj : j ≤ k) (hgrown : Disk.Grown d (t.start d) (t.lead j) d') :
      Climbed t d k (d', .error e)

theorem start_of_grown (h : d.IsTree) (hg : Disk.Grown d (t.start d) lead d') :
    t.start d' = t.start d := by
  rw [start, start, (hg.quiet h).cwd]

/-- A directory found where one could not be made was there from the start. -/
theorem grown_of_lstat (h : d.IsTree) (hk : k < t.above.length) (hg : Disk.Grown d (t.start d) (t.lead k) d')
    (hleads : d'.Leads false Disk.maxLinks (t.start d) (t.lead (k + 1)) (.node P .directory)) :
    Disk.Grown d (t.start d) (t.lead (k + 1)) d' := by
  cases hg with
  | same hsame => exact .same hsame
  | @paved front more R hlead hp =>
    have hnamed := t.named_of_mem (List.getElem_mem hk)
    have hsplit : t.lead t.above.length = front ++ more ++ t.above[k] :: t.above.drop (k + 1) := by
      rw [← hlead, ← List.drop_eq_getElem_cons hk, ← lead_eq]
    have hup : t.above[k] ≠ Path.dotDot := ne_dotDot_of_paved hp hsplit _ List.mem_cons_self
    rw [lead_succ hk] at hleads
    generalize t.above[k] = c at hnamed hup hleads
    obtain ⟨Q, links, hroute, hlast⟩ := hleads.split ⟨c, by simp, hnamed.1⟩
    cases hroute.unique (Disk.Grown.leads h hlead hp)
    have hnone := hp.node?_below h [c] (by simp)
    cases hlast with
    | stay _ hc _ => exact absurd hc (not_or.2 hnamed)
    | up => exact absurd rfl hup
    | down _ _ hn _ _ =>
      rw [hnone] at hn
      cases hn
    | jump _ _ hn _ _ =>
      rw [hnone] at hn
      cases hn

theorem ensure_rungs (h : d.IsTree) (k : Nat) (hk : k ≤ t.above.length) : Climbed t d k (Disk.ensure (t.rungs k) d) := by
  induction k with
  | zero => exact .made (.same (.refl d)) fun h => absurd h (Nat.lt_irrefl 0)
  | succ k ih =>
    have hc := t.named_of_mem (List.getElem_mem hk)
    rw [rungs, Disk.ensure]
    split
    · rename_i hstat
      obtain ⟨P, hfind⟩ := Disk.find_of_stat hstat
      obtain ⟨hadm, hleads⟩ := (find_rung (take_ne_nil hk)).1 hfind
      exact .made (.same (.refl d)) fun _ => ⟨hadm, P, hleads⟩
    · exact .failed (Nat.zero_le _) (.same (.refl d))
    have ih := ih (Nat.le_of_succ_le hk)
    generalize Disk.ensure (t.rungs k) d = outer at ih
    cases ih with
    | failed hj hgrown => exact .failed (Nat.le_succ_of_le hj) hgrown
    | @made d₁ hgrown =>
    have hstart := start_of_grown h hgrown
    dsimp only
    split
    · rename_i hmade
      obtain ⟨q, asDirectory, hfind, rfl⟩ := Disk.mkdir_eq_ok hmade
      obtain ⟨hadm, hleads⟩ := (find_rung (take_ne_nil hk)).1 hfind
      rw [hstart, lead_succ hk] at hleads
      obtain ⟨P, hroute, rfl, hnames, hvacant⟩ := hleads.vacant_concat hc.1
      have hgrown' := hgrown.mkdir h hroute hnames hvacant
      have hleads' := Disk.leads_mkdir hroute hnames hvacant
      rw [← lead_succ hk] at hgrown' hleads'
      exact .made hgrown' fun _ => ⟨hadm, _, hleads'⟩
    · split
      · rename_i hlstat
        obtain ⟨P, hfind⟩ := Disk.find_of_lstat hlstat
        obtain ⟨hadm, hleads⟩ := (find_rung (take_ne_nil hk)).1 hfind
        rw [hstart] at hleads
        refine .made (grown_of_lstat h hk hgrown hleads) fun _ => ⟨hadm, P, ?_⟩
        exact hleads.followed (by simp) rfl
      · exact .failed (Nat.le_succ k) hgrown

theorem ensure_dir (habove : t.above = []) : (Disk.ensure [t.dir] d).1 = d ∧
    ((Disk.ensure [t.dir] d).2 = .ok () → ∃ P, d.find true t.dir = .ok (.node P .directory)) := by
  have hfollow : ∀ {P : Place}, d.find false t.dir = .ok (.node P .directory) →
      d.find true t.dir = .ok (.node P .directory) := by
    intro P hfind
    obtain ⟨hadm, hleads⟩ := Disk.find_eq_ok_iff.1 hfind
    exact Disk.find_eq_ok_iff.2 ⟨hadm, hleads.followed (by simp) rfl⟩
  have hstays : ∀ {d' : Disk}, d.mkdir t.dir ≠ .ok d' := by
    intro d' hmade
    obtain ⟨q, asDirectory, hfind, -⟩ := Disk.mkdir_eq_ok hmade
    obtain ⟨-, hleads⟩ := Disk.find_eq_ok_iff.1 hfind
    have hdots : ∀ c ∈ Path.components t.dir, c = [] ∨ c = Path.dot := by
      rw [dir, habove]
      cases t.rooted <;> decide
    generalize Path.components t.dir = cs at hleads hdots
    generalize Disk.maxLinks = links at hleads
    induction cs with
    | nil => cases hleads
    | cons c cs ih =>
      have hc := hdots c List.mem_cons_self
      have hnames : ¬ Disk.Names c := fun hn => hc.elim hn.ne_nil hn.ne_dot
      cases hleads with
      | stay _ _ h => exact ih (fun b hb => hdots b (List.mem_cons_of_mem _ hb)) h
      | up => exact absurd hc (by decide)
      | down _ hn => exact hnames hn
      | jump _ hn => exact hnames hn
      | vacant _ hn => exact hnames hn
  rw [Disk.ensure]
  split
  · rename_i hstat
    exact ⟨rfl, fun _ => Disk.find_of_stat hstat⟩
  · exact ⟨rfl, fun h => by cases h⟩
  dsimp only [Disk.ensure]
  split
  · rename_i hmade
    exact absurd hmade hstays
  · split
    · rename_i hlstat
      obtain ⟨P, hfind⟩ := Disk.find_of_lstat hlstat
      exact ⟨rfl, fun _ => ⟨P, hfollow hfind⟩⟩
    · exact ⟨rfl, fun h => by cases h⟩

theorem Climbed.grown {made : Disk × Except FileError Unit} (h : Climbed t d k made) :
    ∃ j, Disk.Grown d (t.start d) (t.lead j) made.1 := by
  cases h with
  | made hgrown => exact ⟨_, hgrown⟩
  | failed _ hgrown => exact ⟨_, hgrown⟩

theorem eq_rungs_of_suffix {paths : List Path} (h : paths <:+ t.rungs k) : ∃ j ≤ k, paths = t.rungs j := by
  induction k with
  | zero => exact ⟨0, Nat.le_refl 0, List.suffix_nil.1 h⟩
  | succ k ih =>
    rcases List.suffix_cons_iff.1 h with heq | hsuffix
    · exact ⟨k + 1, Nat.le_refl _, heq⟩
    · obtain ⟨j, hj, heq⟩ := ih hsuffix
      exact ⟨j, Nat.le_succ_of_le hj, heq⟩

theorem grown_of_suffix (h : d.IsTree) {paths : List Path}
    (hpaths : paths <:+ t.dir :: (Disk.parentsFrom [] t.dir).reverse) :
    ∃ k, Disk.Grown d (t.start d) (t.lead k) (Disk.ensure paths d).1 := by
  rw [t.ladder_eq] at hpaths
  split at hpaths
  · rename_i habove
    rcases List.suffix_cons_iff.1 hpaths with rfl | hnil
    · rw [(ensure_dir habove).1]
      exact ⟨0, .same (.refl d)⟩
    · rw [List.suffix_nil.1 hnil]
      exact ⟨0, .same (.refl d)⟩
  · obtain ⟨k, hk, rfl⟩ := eq_rungs_of_suffix hpaths
    exact (ensure_rungs h k hk).grown

theorem mkdirAll_grown (h : d.IsTree) : ∃ k, Disk.Grown d (t.start d) (t.lead k) (d.mkdirAll t.dir).1 :=
  grown_of_suffix h List.suffix_rfl

theorem mkdirAll_ok (h : d.IsTree) (hmade : (d.mkdirAll t.dir).2 = .ok ()) :
    ∃ P, (d.mkdirAll t.dir).1.find true t.dir = .ok (.node P .directory) := by
  rw [t.mkdirAll_dir] at hmade ⊢
  split at hmade
  · rename_i habove
    rw [if_pos habove, (ensure_dir habove).1]
    exact (ensure_dir habove).2 hmade
  · rename_i habove
    rw [if_neg habove]
    have hclimbed := ensure_rungs (t := t) h t.above.length (Nat.le_refl _)
    generalize Disk.ensure (t.rungs t.above.length) d = made at hclimbed hmade
    cases hclimbed with
    | made hgrown hleads =>
      obtain ⟨hadm, P, hleads⟩ := hleads (List.length_pos_iff.2 habove)
      rw [t.rung_length] at hadm
      exact ⟨P, find_dir.2 ⟨hadm, by rw [start_of_grown h hgrown]; exact hleads⟩⟩
    | failed => cases hmade

theorem mkdirAll_new (h : d.IsTree) (hp : (d.mkdirAll t.dir).1.node? p ≠ d.node? p) :
    d.MadeOn t.dir p := by
  by_cases habove : t.above = []
  · rw [t.mkdirAll_dir, if_pos habove, (ensure_dir habove).1] at hp
    exact absurd rfl hp
  · obtain ⟨k, hgrown⟩ := mkdirAll_grown (t := t) h
    obtain ⟨hvacant, -, cs, hcs, hleads⟩ := hgrown.new h hp
    refine ⟨hvacant, cs, hcs.trans ?_, by rwa [t.start_dir]⟩
    rw [t.components_dir habove, lead_eq k]
    exact List.prefix_append _ _

/-! ## What the path shows meanwhile -/

section Path

variable {d₁ d₂ : Disk} {j k : Nat}

theorem paved_rest {front : List Bytes} (hlead : t.lead k = front ++ more)
    (hp : Disk.Paved d d' (t.start d) front more R) :
    t.lead t.above.length ++ [t.base] = front ++ (more ++ (t.above.drop k ++ [t.base])) ∧
      ∀ c ∈ t.above.drop k ++ [t.base], (c ≠ [] ∧ c ≠ Path.dot) ∧ c ≠ Path.dotDot := by
  have hsplit : t.lead t.above.length = front ++ more ++ t.above.drop k := by rw [← hlead, ← lead_eq]
  refine ⟨by rw [hsplit]; simp, fun c hc => ?_⟩
  rcases List.mem_append.1 hc with hc | hc
  · exact ⟨t.named_of_mem (List.mem_of_mem_drop hc), ne_dotDot_of_paved hp hsplit c hc⟩
  · rw [List.mem_singleton.1 hc]
    exact ⟨⟨t.plain.ne_nil, t.plain.ne_dot⟩, t.plain.ne_dotDot⟩

theorem not_leads_below (h : d.IsTree) {front : List Bytes} {Q : Place}
    (hc : (c ≠ [] ∧ c ≠ Path.dot) ∧ c ≠ Path.dotDot) (hp : Disk.Paved d d' (t.start d) front more R) :
    ¬ d'.Leads follow Disk.maxLinks (t.start d) (front ++ more ++ c :: rest) (.node Q n) := by
  intro hleads
  obtain ⟨P, links, hroute, hrest⟩ := hleads.split ⟨c, by simp, hc.1.1⟩
  cases hroute.unique (Disk.Grown.leads h rfl hp)
  exact Disk.Leads.not_node hc (hp.node?_below h [c] (by simp)) hrest

/-- The directory that the way comes to, in a tree that has it: it was there, or it was made. -/
theorem ends_of_grown (h : d.IsTree) (hg : Disk.Grown d (t.start d) (t.lead k) d')
    (hleads : d'.Leads true Disk.maxLinks (t.start d) (t.lead t.above.length) (.node P .directory)) :
    d.Leads true Disk.maxLinks (t.start d) (t.lead t.above.length) (.node P .directory) ∨
      ∃ front more R, t.lead t.above.length = front ++ more ∧ P = R ++ more ∧
        Disk.Paved d d' (t.start d) front more R := by
  cases hg with
  | same hsame => exact .inl (hsame.symm.leads hleads)
  | @paved front more R hlead hp =>
    have hsplit : t.lead t.above.length = front ++ more ++ t.above.drop k := by rw [← hlead, ← lead_eq]
    obtain ⟨-, hnamed⟩ := paved_rest hlead hp
    cases hrest : t.above.drop k with
    | nil =>
      rw [hrest, List.append_nil] at hsplit
      cases hleads.unique (Disk.Grown.leads h hsplit hp)
      exact .inr ⟨front, more, R, hsplit, rfl, hp⟩
    | cons c rest =>
      rw [hsplit, hrest] at hleads
      exact absurd hleads (not_leads_below h (hnamed c (by simp [hrest])) hp)

end Path

end OutputPath

end ShaderForge
