import Mathlib.Data.List.Basic
import ShaderForge.Files.Disk
import ShaderForge.Proofs.Files.Path

/-!
# ShaderForge.Proofs.Files.Walk

Where paths lead in a file tree.

* `Disk.node?_put`, `Disk.node?_erase` — what a change does to each place.
* `Disk.Leads`       — the walk along components as a relation, one rule for each kind of step.
* `Disk.walk_eq_ok_iff`, `Disk.find_eq_ok_iff` — the walk and the search come out as the relation says.
* `Disk.Leads.split`, `Disk.Leads.append` — a walk in two parts.
* `Disk.Leads.keeps`, `Disk.Leads.not_mem` — what a walk depends on, and where it cannot come to.
-/

namespace ShaderForge

/-! ## Single places -/

section Lookup

variable {α β : Type}

theorem lookup_map_replace_of_ne [BEq α] [LawfulBEq α] [DecidableEq α] (l : List (α × β)) {k p : α} (b : β)
    (h : p ≠ k) : (l.map fun e => if e.1 = k then (k, b) else e).lookup p = l.lookup p := by
  induction l with
  | nil => rfl
  | cons e l ih =>
    obtain ⟨k', b'⟩ := e
    by_cases hk : k' = k
    · subst hk
      simp [List.lookup_cons, ih, beq_eq_false_iff_ne.2 h]
    · by_cases hp : p = k'
      · subst hp
        simp [hk]
      · simp [List.lookup_cons, hk, ih, beq_eq_false_iff_ne.2 hp]

theorem lookup_map_replace_self [BEq α] [LawfulBEq α] [DecidableEq α] (l : List (α × β)) {k : α} (b : β)
    (h : k ∈ l.map (·.1)) : (l.map fun e => if e.1 = k then (k, b) else e).lookup k = some b := by
  induction l with
  | nil => cases h
  | cons e l ih =>
    obtain ⟨k', b'⟩ := e
    by_cases hk : k' = k
    · subst hk
      simp
    · have hmem : k ∈ l.map (·.1) := (List.mem_cons.1 h).resolve_left (Ne.symm hk)
      simp [List.lookup_cons, hk, ih hmem, beq_eq_false_iff_ne.2 (Ne.symm hk)]

theorem lookup_append_singleton [BEq α] [LawfulBEq α] [DecidableEq α] (l : List (α × β)) {k : α} (b : β) (p : α)
    (h : k ∉ l.map (·.1)) :
    (l ++ [(k, b)]).lookup p = if p = k then some b else l.lookup p := by
  induction l with
  | nil => by_cases hp : p = k <;> simp [List.lookup_cons, hp, beq_eq_false_iff_ne.2]
  | cons e l ih =>
    obtain ⟨k', b'⟩ := e
    simp only [List.map_cons, List.mem_cons, not_or] at h
    by_cases hp : p = k'
    · subst hp
      simp [Ne.symm h.1]
    · simp [List.lookup_cons, ih h.2, beq_eq_false_iff_ne.2 hp]

theorem lookup_filter_key [BEq α] [LawfulBEq α] [DecidableEq α] (l : List (α × β)) (keep : α → Bool) (p : α) :
    (l.filter fun e => keep e.1).lookup p = if keep p then l.lookup p else none := by
  induction l with
  | nil => simp
  | cons e l ih =>
    obtain ⟨k, b⟩ := e
    by_cases hp : p = k
    · subst hp
      by_cases hk : keep p <;> simp [hk, ih]
    · by_cases hk : keep k <;>
        simp [List.lookup_cons, hk, ih, beq_eq_false_iff_ne.2 hp]

end Lookup

def Found.place : Found → Place
  | .node place _ => place
  | .vacant place _ => place

def Found.node? : Found → Option Node
  | .node _ n => some n
  | .vacant _ _ => none

namespace Disk

variable {d d' : Disk} {place : Place}
variable {follow : Bool} {links : Nat} {rest : List Bytes} {f : Found}

theorem node?_nil (d : Disk) : d.node? [] = some .directory := if_pos rfl

theorem node?_put (d : Disk) (hplace : place ≠ []) (n : Node) (p : Place) :
    (d.put place n).node? p = if p = place then some n else d.node? p := by
  by_cases hp : p = []
  · subst hp
    simp [node?, Ne.symm hplace]
  · rw [node?, node?, if_neg hp, if_neg hp, put]
    by_cases hmem : place ∈ d.nodes.map (·.1)
    · obtain ⟨e, he, heq⟩ := List.mem_map.1 hmem
      rw [if_pos (List.any_eq_true.2 ⟨e, he, by simpa using heq⟩)]
      by_cases hpp : p = place
      · rw [if_pos hpp, hpp]
        exact lookup_map_replace_self d.nodes n hmem
      · rw [if_neg hpp]
        exact lookup_map_replace_of_ne d.nodes n hpp
    · rw [if_neg]
      · exact lookup_append_singleton d.nodes n p hmem
      · intro hany
        obtain ⟨e, he, heq⟩ := List.any_eq_true.1 hany
        exact hmem (List.mem_map.2 ⟨e, he, by simpa using heq⟩)

theorem node?_putFile (d : Disk) (hplace : place ≠ []) (content : Bytes) (p : Place) :
    (d.putFile place content).node? p =
      if p = place then some (.file content d.clock) else d.node? p :=
  node?_put d hplace _ p

theorem node?_erase (d : Disk) (hplace : place ≠ []) (p : Place) :
    (d.erase place).node? p = if place <+: p then none else d.node? p := by
  by_cases hp : p = []
  · subst hp
    simp [node?, hplace]
  · have hfilter := lookup_filter_key d.nodes (fun q => !(place.isPrefixOf q)) p
    rw [node?, node?, if_neg hp, if_neg hp]
    refine hfilter.trans ?_
    by_cases hpre : place <+: p
    · simp [hpre, List.isPrefixOf_iff_prefix.2 hpre]
    · simp [hpre, mt List.isPrefixOf_iff_prefix.1 hpre]

theorem cwd_put (d : Disk) (place : Place) (n : Node) : (d.put place n).cwd = d.cwd := by
  unfold put
  split <;> rfl

/-! ## Walks -/

/-- A component that names an entry of a directory. -/
structure Names (c : Bytes) : Prop where
  ne_nil : c ≠ []
  ne_dot : c ≠ Path.dot
  ne_dotDot : c ≠ Path.dotDot
  short : c.length ≤ maxName

/-- Where components lead from a place, one rule for each kind of step. -/
inductive Leads (d : Disk) (follow : Bool) : (links : Nat) → Place → List Bytes → Found → Prop
  | here {links : Nat} {place : Place} {n : Node} (hn : d.node? place = some n) :
      Leads d follow links place [] (.node place n)
  | stay {links : Nat} {place : Place} {c : Bytes} {rest : List Bytes} {f : Found}
      (hdir : d.node? place = some .directory) (hc : c = [] ∨ c = Path.dot)
      (h : Leads d follow links place rest f) : Leads d follow links place (c :: rest) f
  | up {links : Nat} {place : Place} {rest : List Bytes} {f : Found}
      (hdir : d.node? place = some .directory) (h : Leads d follow links place.dropLast rest f) :
      Leads d follow links place (Path.dotDot :: rest) f
  | down {links : Nat} {place : Place} {c : Bytes} {rest : List Bytes} {f : Found} {n : Node}
      (hdir : d.node? place = some .directory) (hc : Names c) (hn : d.node? (place ++ [c]) = some n)
      (hlink : ∀ target, n ≠ .link target) (h : Leads d follow links (place ++ [c]) rest f) :
      Leads d follow links place (c :: rest) f
  | jump {links : Nat} {place : Place} {c : Bytes} {rest : List Bytes} {f : Found} {target : Path}
      (hdir : d.node? place = some .directory) (hc : Names c)
      (hn : d.node? (place ++ [c]) = some (.link target)) (hpass : rest ≠ [] ∨ follow = true)
      (h : Leads d follow links (if Path.isAbsolute target then [] else place)
        (Path.components target ++ rest) f) : Leads d follow (links + 1) place (c :: rest) f
  | link {links : Nat} {place : Place} {c : Bytes} {target : Path}
      (hdir : d.node? place = some .directory) (hc : Names c)
      (hn : d.node? (place ++ [c]) = some (.link target)) (hfollow : follow = false) :
      Leads d follow links place [c] (.node (place ++ [c]) (.link target))
  | vacant {links : Nat} {place : Place} {c : Bytes} {rest : List Bytes}
      (hdir : d.node? place = some .directory) (hc : Names c) (hn : d.node? (place ++ [c]) = none)
      (hrest : ∀ e ∈ rest, e = []) :
      Leads d follow links place (c :: rest) (.vacant (place ++ [c]) (!rest.isEmpty))

theorem leads_of_walk (h : d.walk follow links place rest = .ok f) : d.Leads follow links place rest f := by
  fun_induction walk d follow links place rest with
  | case1 links place n hn =>
    cases h
    exact .here hn
  | case2 | case3 | case6 | case8 | case10 | case13 => cases h
  | case4 links place c rest hdir hc ih =>
    simp only [Bool.or_eq_true, decide_eq_true_eq] at hc
    exact .stay hdir hc (ih h)
  | case5 links place rest hdir hc ih => exact .up hdir (ih h)
  | case7 links place c rest hdir hc hdd hlen hn hrest =>
    cases h
    simp only [Bool.or_eq_true, decide_eq_true_eq, not_or] at hc
    exact .vacant hdir ⟨hc.1, hc.2, hdd, by omega⟩ hn (by simpa using hrest)
  | case9 links place c rest hdir hc hdd hlen target hn hlast =>
    cases h
    simp only [Bool.or_eq_true, decide_eq_true_eq, not_or] at hc
    simp only [Bool.and_eq_true, List.isEmpty_iff, Bool.not_eq_true'] at hlast
    obtain ⟨rfl, hfollow⟩ := hlast
    exact .link hdir ⟨hc.1, hc.2, hdd, by omega⟩ hn hfollow
  | case11 place c rest hdir hc hdd hlen target hn hlast links ih =>
    simp only [Bool.or_eq_true, decide_eq_true_eq, not_or] at hc
    refine .jump hdir ⟨hc.1, hc.2, hdd, by omega⟩ hn ?_ (ih h)
    by_cases hnil : rest = []
    · right
      subst hnil
      simpa using hlast
    · exact .inl hnil
  | case12 links place c rest hdir hc hdd hlen n hlink hn ih =>
    simp only [Bool.or_eq_true, decide_eq_true_eq, not_or] at hc
    exact .down hdir ⟨hc.1, hc.2, hdd, by omega⟩ hn (fun t ht => hlink t ht) (ih h)

theorem walk_of_leads (h : d.Leads follow links place rest f) : d.walk follow links place rest = .ok f := by
  have hname : ∀ c, Names c → (decide (c = []) || decide (c = Path.dot)) = false ∧
      c ≠ Path.dotDot ∧ ¬ maxName < c.length := by
    intro c hc
    exact ⟨by simp [hc.ne_nil, hc.ne_dot], hc.ne_dotDot, by have := hc.short; omega⟩
  induction h with
  | here hn => rw [walk, hn]
  | stay hdir hc _ ih =>
    rw [walk, hdir]
    simp only
    rw [if_pos (by simpa using hc), ih]
  | up hdir _ ih =>
    rw [walk, hdir]
    simp only
    rw [if_neg (by decide)]
    simp only [if_true, ih]
  | @down links place c rest f n hdir hc hn hlink _ ih =>
    obtain ⟨h1, h2, h3⟩ := hname c hc
    rw [walk, hdir]
    simp only [h1, h2, h3, hn, if_false, Bool.false_eq_true]
    cases n with
    | link target => exact absurd rfl (hlink target)
    | file content time => exact ih
    | directory => exact ih
  | @jump links place c rest f target hdir hc hn hpass _ ih =>
    obtain ⟨h1, h2, h3⟩ := hname c hc
    have hlast : (rest.isEmpty && !follow) = false := by
      rcases hpass with hne | hfollow
      · simp [hne]
      · simp [hfollow]
    rw [walk, hdir]
    simp only [h1, h2, h3, hn, hlast, if_false, Bool.false_eq_true, ih]
  | @link links place c target hdir hc hn hfollow =>
    obtain ⟨h1, h2, h3⟩ := hname c hc
    rw [walk, hdir]
    simp [h1, h2, h3, hn, hfollow]
  | @vacant links place c rest hdir hc hn hrest =>
    obtain ⟨h1, h2, h3⟩ := hname c hc
    rw [walk, hdir]
    simp only [h1, h2, h3, hn, if_false, Bool.false_eq_true]
    rw [if_pos (by simpa using hrest)]

theorem walk_eq_ok_iff :
    d.walk follow links place rest = .ok f ↔ d.Leads follow links place rest f :=
  ⟨leads_of_walk, walk_of_leads⟩

theorem Leads.unique {f' : Found} (h : d.Leads follow links place rest f) (h' : d.Leads follow links place rest f') :
    f = f' := by
  have heq := walk_of_leads h
  rw [walk_of_leads h'] at heq
  cases heq
  rfl

theorem Leads.directory_of_cons {c : Bytes} (h : d.Leads follow links place (c :: rest) f) :
    d.node? place = some .directory := by
  cases h <;> assumption

theorem Leads.split_nil {more all : List Bytes} (hmore : more ≠ []) (hall : [] ++ more = all)
    (h : d.Leads follow links place all f) :
    ∃ q links', d.Leads true links place [] (.node q .directory) ∧ d.Leads follow links' q more f := by
  subst hall
  cases more with
  | nil => exact absurd rfl hmore
  | cons c more => exact ⟨place, links, .here h.directory_of_cons, h⟩

/-- A walk that comes to its end passes a directory at the end of each part that more names follow. -/
theorem Leads.split {more : List Bytes} (hmore : ∃ c ∈ more, c ≠ []) (h : d.Leads follow links place (rest ++ more) f) :
    ∃ q links', d.Leads true links place rest (.node q .directory) ∧ d.Leads follow links' q more f := by
  generalize hall : rest ++ more = all at h
  obtain ⟨c₀, hc₀, hne₀⟩ := hmore
  have hmore : more ≠ [] := List.ne_nil_of_mem hc₀
  -- a link puts its target before what is left of the first part, so that part varies
  induction h generalizing rest with
  | here hn =>
    cases rest with
    | nil => exact Leads.split_nil hmore hall (.here hn)
    | cons c rest => cases hall
  | stay hdir hc h ih =>
    cases rest with
    | nil => exact Leads.split_nil hmore hall (.stay hdir hc h)
    | cons c rest =>
      cases hall
      obtain ⟨q, l, h1, h2⟩ := ih rfl
      exact ⟨q, l, .stay hdir hc h1, h2⟩
  | up hdir h ih =>
    cases rest with
    | nil => exact Leads.split_nil hmore hall (.up hdir h)
    | cons c rest =>
      cases hall
      obtain ⟨q, l, h1, h2⟩ := ih rfl
      exact ⟨q, l, .up hdir h1, h2⟩
  | down hdir hc hn hlink h ih =>
    cases rest with
    | nil => exact Leads.split_nil hmore hall (.down hdir hc hn hlink h)
    | cons c rest =>
      cases hall
      obtain ⟨q, l, h1, h2⟩ := ih rfl
      exact ⟨q, l, .down hdir hc hn hlink h1, h2⟩
  | jump hdir hc hn hpass h ih =>
    cases rest with
    | nil => exact Leads.split_nil hmore hall (.jump hdir hc hn hpass h)
    | cons c rest =>
      cases hall
      obtain ⟨q, l, h1, h2⟩ := ih (List.append_assoc _ _ _)
      exact ⟨q, l, .jump hdir hc hn (.inr rfl) h1, h2⟩
  | link hdir hc hn hfollow =>
    cases rest with
    | nil => exact Leads.split_nil hmore hall (.link hdir hc hn hfollow)
    | cons c rest =>
      obtain ⟨-, hnil⟩ := List.cons.inj hall
      rw [(List.append_eq_nil_iff.1 hnil).2] at hc₀
      cases hc₀
  | vacant hdir hc hn hrest =>
    cases rest with
    | nil => exact Leads.split_nil hmore hall (.vacant hdir hc hn hrest)
    | cons c rest =>
      cases hall
      exact absurd (hrest c₀ (List.mem_append_right _ hc₀)) hne₀

theorem Leads.append {q : Place} (h : d.Leads true links place rest (.node q .directory)) :
    ∃ links', ∀ follow more f, more ≠ [] → d.Leads follow links' q more f →
      d.Leads follow links place (rest ++ more) f := by
  generalize hq : Found.node q .directory = g at h
  induction h with
  | here hn =>
    cases hq
    exact ⟨_, fun follow more f _ h => h⟩
  | stay hdir hc _ ih =>
    obtain ⟨l, hl⟩ := ih hq
    exact ⟨l, fun follow more f hne h => .stay hdir hc (hl follow more f hne h)⟩
  | up hdir _ ih =>
    obtain ⟨l, hl⟩ := ih hq
    exact ⟨l, fun follow more f hne h => .up hdir (hl follow more f hne h)⟩
  | down hdir hc hn hlink _ ih =>
    obtain ⟨l, hl⟩ := ih hq
    exact ⟨l, fun follow more f hne h => .down hdir hc hn hlink (hl follow more f hne h)⟩
  | jump hdir hc hn _ _ ih =>
    obtain ⟨l, hl⟩ := ih hq
    refine ⟨l, fun follow more f hne h => .jump hdir hc hn (.inl ?_) ?_⟩
    · exact fun hnil => hne (List.append_eq_nil_iff.1 hnil).2
    · have happ := hl follow more f hne h
      rw [List.append_assoc] at happ
      exact happ
  | link _ _ _ hfollow => cases hfollow
  | vacant => cases hq

theorem Leads.names {c : Bytes} (hc : Path.Plain c) (h : d.Leads follow links place (c :: rest) f) : Names c := by
  cases h with
  | stay _ hc' _ => exact absurd hc' (not_or.2 ⟨hc.ne_nil, hc.ne_dot⟩)
  | up => exact absurd rfl hc.ne_dotDot
  | down _ hname _ _ _ => exact hname
  | jump _ hname _ _ _ => exact hname
  | link _ hname _ _ => exact hname
  | vacant _ hname _ _ => exact hname

/-- A name that stands for itself and for no link is passed by going down. -/
theorem Leads.down_plain {c : Bytes} (hc : Path.Plain c)
    (hlink : ∀ target, d.node? (place ++ [c]) ≠ some (.link target)) (hrest : ∃ e ∈ rest, e ≠ [])
    (h : d.Leads follow links place (c :: rest) f) :
    d.Leads follow links (place ++ [c]) rest f := by
  cases h with
  | stay _ hc' _ => exact absurd hc' (not_or.2 ⟨hc.ne_nil, hc.ne_dot⟩)
  | up => exact absurd rfl hc.ne_dotDot
  | down _ _ _ _ h => exact h
  | jump _ _ hn _ _ => exact absurd hn (hlink _)
  | link _ _ hn _ => exact absurd hn (hlink _)
  | vacant _ _ _ hnil =>
    obtain ⟨e, he, hne⟩ := hrest
    exact absurd (hnil e he) hne

theorem Leads.vacant_last {c : Bytes} (hc : Path.Plain c) (hn : d.node? (place ++ [c]) = none)
    (h : d.Leads follow links place [c] f) :
    f = .vacant (place ++ [c]) false := by
  cases h with
  | stay _ hc' _ => exact absurd hc' (not_or.2 ⟨hc.ne_nil, hc.ne_dot⟩)
  | up => exact absurd rfl hc.ne_dotDot
  | down _ _ hn' _ _ =>
    rw [hn] at hn'
    cases hn'
  | jump _ _ hn' _ _ =>
    rw [hn] at hn'
    cases hn'
  | link _ _ hn' _ =>
    rw [hn] at hn'
    cases hn'
  | vacant => rfl

theorem Leads.node?_place (h : d.Leads follow links place rest f) : d.node? f.place = f.node? := by
  induction h with
  | here hn => exact hn
  | stay _ _ _ ih => exact ih
  | up _ _ ih => exact ih
  | down _ _ _ _ _ ih => exact ih
  | jump _ _ _ _ _ ih => exact ih
  | link _ _ hn _ => exact hn
  | vacant _ _ hn _ => exact hn

/-- A walk passes directories and links only, so it goes the same way in a tree that keeps these. -/
theorem Leads.keeps {q : Place} {n n' : Node}
    (hdirs : ∀ p, d.node? p = some .directory → d'.node? p = some .directory)
    (hlinks : ∀ p target, d.node? p = some (.link target) → d'.node? p = some (.link target))
    (hq : d'.node? q = some n') (hlike : ∀ target, n' = .link target ↔ n = .link target)
    (h : d.Leads follow links place rest (.node q n)) : d'.Leads follow links place rest (.node q n') := by
  generalize hg : Found.node q n = g at h
  induction h with
  | here hn =>
    cases hg
    exact .here hq
  | stay hdir hc _ ih => exact .stay (hdirs _ hdir) hc (ih hg)
  | up hdir _ ih => exact .up (hdirs _ hdir) (ih hg)
  | @down links place c rest f m hdir hc hn hlink hrest ih =>
    cases rest with
    | nil =>
      cases hrest with
      | here hm =>
        cases hg
        rw [hn] at hm
        cases hm
        exact .down (hdirs _ hdir) hc hq (fun t ht => hlink t ((hlike t).1 ht)) (.here hq)
    | cons e rest =>
      have hm := hrest.directory_of_cons
      exact .down (hdirs _ hdir) hc (hdirs _ hm) (fun t ht => by cases ht) (ih hg)
  | jump hdir hc hn hpass _ ih => exact .jump (hdirs _ hdir) hc (hlinks _ _ hn) hpass (ih hg)
  | @link links place c target hdir hc hn hfollow =>
    cases hg
    obtain rfl := (hlike target).2 rfl
    exact .link (hdirs _ hdir) hc hq hfollow
  | vacant => cases hg

/-- A walk comes to no place with a name that stands neither in the path nor at the start nor in a link. -/
theorem Leads.not_mem {name : Bytes}
    (hlinks : ∀ p target, d.node? p = some (.link target) → name ∉ Path.components target) (hplace : name ∉ place)
    (hrest : name ∉ rest) (h : d.Leads follow links place rest f) :
    name ∉ f.place := by
  have hstep : ∀ {place : Place} {c : Bytes} {rest : List Bytes}, name ∉ place → name ∉ c :: rest →
      name ∉ place ++ [c] ∧ name ∉ rest := by
    intro place c rest hplace hrest
    simp only [List.mem_cons, not_or] at hrest
    simp [hplace, hrest]
  induction h with
  | here hn => exact hplace
  | stay hdir hc _ ih => exact ih hplace (hstep hplace hrest).2
  | up hdir _ ih => exact ih (fun hmem => hplace (List.dropLast_subset _ hmem)) (hstep hplace hrest).2
  | down hdir hc hn hlink _ ih => exact ih (hstep hplace hrest).1 (hstep hplace hrest).2
  | jump hdir hc hn _ _ ih =>
    apply ih
    · split
      · exact List.not_mem_nil
      · exact hplace
    · rw [List.mem_append, not_or]
      exact ⟨hlinks _ _ hn, (hstep hplace hrest).2⟩
  | link => exact (hstep hplace hrest).1
  | vacant => exact (hstep hplace hrest).1

/-! ## Paths -/

/-- A path that a search takes up. -/
structure Admissible (p : Path) : Prop where
  no_nul : p.contains [0] = false
  ne_nil : p ≠ []
  short : p.length < maxPath

def start (d : Disk) (p : Path) : Place := if Path.isAbsolute p then [] else d.cwd

theorem walk_ne_exists (d : Disk) (follow : Bool) (links : Nat) (place : Place) (rest : List Bytes) :
    d.walk follow links place rest ≠ .error .exists := by
  fun_induction walk d follow links place rest <;> simp_all

theorem find_ne_exists (d : Disk) (follow : Bool) (p : Path) : d.find follow p ≠ .error .exists := by
  unfold find
  split
  · simp
  split
  · simp
  split
  · simp
  exact walk_ne_exists d follow _ _ _

theorem find_eq_ok_iff {p : Path} :
    d.find follow p = .ok f ↔
      Admissible p ∧ d.Leads follow maxLinks (d.start p) (Path.components p) f := by
  rw [← walk_eq_ok_iff]
  constructor
  · intro h
    unfold find at h
    split at h
    · cases h
    split at h
    · cases h
    split at h
    · cases h
    rename_i hnul hnil hlong
    exact ⟨⟨by simpa using hnul, hnil, by omega⟩, h⟩
  · rintro ⟨hp, h⟩
    rw [find, if_neg (by rw [hp.no_nul]; decide), if_neg hp.ne_nil,
      if_neg (Nat.not_le.2 hp.short)]
    exact h

theorem node?_of_find {p : Path} (h : d.find follow p = .ok f) :
    d.node? f.place = f.node? :=
  (find_eq_ok_iff.1 h).2.node?_place

theorem ne_nil_of_not_directory {n : Option Node} (h : d.node? place = n) (hn : n ≠ some .directory) :
    place ≠ [] := by
  rintro rfl
  exact hn (h.symm.trans (node?_nil d))

end Disk
end ShaderForge
