import ShaderForge.Build.Discover
import ShaderForge.Proofs.Files.Replacement
import ShaderForge.Proofs.Files.Spelling
import ShaderForge.Proofs.Files.TempDirectory

/-!
# ShaderForge.Proofs.Build.Deposits

Files that are written below one directory at the same time.

* `Deposit`, `Deposit.Apart`    — such a file; no file is a directory on the way to the other.
* `Yard`, `Yard.Stands`         — the directory, as far as it is there, in a tree without links below it.
* `Yard.Way`, `Yard.Own`        — the places of the directories on the way, and those of the file and its fresh files.
* `Yard.Changes`, `Yard.Yields` — what writing a file may change, and what it needs the others to leave alone.
* `Yard.Changes.yields`         — files that are apart do not disturb each other.
* `Yard.Stands.place_of_leads`, `Yard.Stands.opens_iff` — where the paths of a file lead, whatever stands below.
-/

namespace ShaderForge

theorem prefix_append_cases {α : Type} {p l l' : List α} (h : p <+: l ++ l') :
    p <+: l ∨ ∃ q, q ≠ [] ∧ q <+: l' ∧ p = l ++ q := by
  by_cases hshort : p <+: l
  · exact .inl hshort
  · obtain ⟨q, rfl⟩ := (List.prefix_or_prefix_of_prefix h (List.prefix_append l l')).resolve_left hshort
    refine .inr ⟨q, ?_, (List.prefix_append_right_inj l).1 h, rfl⟩
    rintro rfl
    simp at hshort

namespace Disk

variable {d : Disk} {place : Place} {cs rest : List Bytes} {follow : Bool} {links : Nat} {f : Found}

theorem spot_of_named (h : ∀ c ∈ cs, (c ≠ [] ∧ c ≠ Path.dot) ∧ c ≠ Path.dotDot) : spot place cs = place ++ cs := by
  induction cs generalizing place with
  | nil => rw [spot_nil, List.append_nil]
  | cons c cs ih =>
    have hc := h c List.mem_cons_self
    rw [spot_cons, stride_name _ hc.1 hc.2, ih fun b hb => h b (List.mem_cons_of_mem _ hb), List.append_assoc]
    rfl

theorem Leads.names_of_unlinked (h : d.Leads follow links place cs f) (hfree : d.Unlinked place cs)
    (hnamed : ∀ c ∈ cs, (c ≠ [] ∧ c ≠ Path.dot) ∧ c ≠ Path.dotDot) : ∀ c ∈ cs, Names c := by
  induction cs generalizing place links with
  | nil => exact fun c hc => absurd hc List.not_mem_nil
  | cons c cs ih =>
    have hc := hnamed c List.mem_cons_self
    have htail : ∀ b ∈ cs, (b ≠ [] ∧ b ≠ Path.dot) ∧ b ≠ Path.dotDot := fun b hb => hnamed b (List.mem_cons_of_mem _ hb)
    have hhead := hfree.head
    have hrest := hfree.tail
    rw [stride_name _ hc.1 hc.2] at hhead hrest
    rw [List.forall_mem_cons]
    cases h with
    | stay _ hstay _ => exact absurd hstay (not_or.2 hc.1)
    | up => exact absurd rfl hc.2
    | down _ hname _ _ h => exact ⟨hname, ih h hrest htail⟩
    | jump _ _ hn _ _ => exact absurd hn (hhead _)
    | link _ _ hn _ => exact absurd hn (hhead _)
    | vacant _ hname _ hnil => exact ⟨hname, fun b hb => absurd (hnil b hb) (htail b hb).1.1⟩

theorem IsTree.directory_of_append (h : d.IsTree) (hdir : d.node? (place ++ cs) = some .directory) :
    d.node? place = some .directory := by
  by_cases hcs : cs = []
  · rwa [hcs, List.append_nil] at hdir
  · by_contra hplace
    rw [h.node?_below hplace cs hcs] at hdir
    cases hdir

theorem leads_down (htree : d.IsTree) (hdir : d.node? (place ++ cs) = some .directory) (hnames : ∀ c ∈ cs, Names c)
    (h : d.Leads follow links (place ++ cs) rest f) : d.Leads follow links place (cs ++ rest) f := by
  induction cs generalizing place with
  | nil => rwa [List.append_nil] at h
  | cons c cs ih =>
    rw [List.append_cons] at h hdir
    have hplace : d.node? (place ++ [c]) = some .directory := htree.directory_of_append hdir
    have hrest := ih hdir (fun b hb => hnames b (List.mem_cons_of_mem _ hb)) h
    exact .down (htree place c _ hplace) (hnames c List.mem_cons_self) hplace (by simp) hrest

end Disk

open Disk

/-! ## Files below a directory -/

/-- A file to be written below a directory: in directories that are not hidden, under the name of an artifact. -/
structure Deposit where
  dirs : List Bytes
  base : Bytes
  plain_dirs : ∀ c ∈ dirs, Path.Plain c
  visible : ∀ c ∈ dirs, isHidden c = false
  plain : Path.Plain base
  ext : ∃ stem, base = stem ++ artifactExt

namespace Deposit

variable {a b : Deposit} {n m : Nat}

def below (a : Deposit) : List Bytes := a.dirs ++ [a.base]

theorem not_below_self (a : Deposit) : ¬ a.below <+: a.dirs := by
  intro hle
  have hlen := hle.length_le
  rw [below, List.length_append, List.length_singleton] at hlen
  omega

/-- Two files at different places, neither of which stands where the other needs a directory. -/
structure Apart (a b : Deposit) : Prop where
  ne : a.below ≠ b.below
  not_above : ¬ a.below <+: b.dirs
  not_below : ¬ b.below <+: a.dirs

def temp (a : Deposit) (n : Nat) : Bytes := utf8 "." ++ a.base ++ utf8 "." ++ Bytes.ofNat n ++ utf8 ".tmp"

theorem isHidden_temp (a : Deposit) (n : Nat) : isHidden (a.temp n) = true := rfl

theorem dot_not_mem_ofNat (n : Nat) : octet '.' ∉ Bytes.ofNat n :=
  fun h => absurd (Bytes.isDigit_of_mem_ofNat _ h) (by decide)

theorem base_eq_of_temp (h : a.temp n = b.temp m) : a.base = b.base := by
  have hdots : a.base ++ octet '.' :: Bytes.ofNat n = b.base ++ octet '.' :: Bytes.ofNat m := by
    have hdot : utf8 "." = [octet '.'] := rfl
    rw [temp, temp, List.append_left_inj, hdot] at h
    simpa using h
  rcases List.append_eq_append_iff.1 hdots with ⟨rest, hbase, hrest⟩ | ⟨rest, hbase, hrest⟩
  · cases rest with
    | nil => simpa using hbase.symm
    | cons c rest =>
      obtain ⟨-, hrest⟩ := List.cons.inj hrest
      exact absurd (by simp [hrest]) (dot_not_mem_ofNat n)
  · cases rest with
    | nil => simpa using hbase
    | cons c rest =>
      obtain ⟨-, hrest⟩ := List.cons.inj hrest
      exact absurd (by simp [hrest]) (dot_not_mem_ofNat m)

theorem temp_ne_base (a b : Deposit) (n : Nat) : a.temp n ≠ b.base := by
  intro heq
  obtain ⟨stem, hstem⟩ := b.ext
  have htmp : (a.temp n).getLast? = some (octet 'p') := by
    rw [temp, List.getLast?_append]
    rfl
  have hbin : (stem ++ artifactExt).getLast? = some (octet 'n') := by
    rw [List.getLast?_append]
    rfl
  rw [heq, hstem, hbin] at htmp
  exact absurd htmp (by decide)

def target (out : Path) (a : Deposit) : OutputPath where
  rooted := Path.isAbsolute out
  above := Path.cleanComponents out ++ a.dirs
  base := a.base
  clean := Path.cleaned_cleanComponents_append a.plain_dirs
  no_slash := Path.no_slash_of_mem a.plain_dirs
  plain := a.plain

theorem patternParts_star {front back : Bytes} (h : octet '*' ∉ back) :
    Disk.patternParts (front ++ octet '*' :: back) = (front, back) := by
  have hback : ((front ++ octet '*' :: back).reverse.takeWhile (· ≠ octet '*')).reverse = back := by
    have htake : ∀ b ∈ back.reverse, decide (b ≠ octet '*') = true := by
      intro b hb
      rw [decide_eq_true_iff]
      rintro rfl
      exact h (List.mem_reverse.1 hb)
    rw [List.reverse_append, List.reverse_cons, List.append_assoc, List.takeWhile_append_of_pos htake]
    simp
  unfold Disk.patternParts
  rw [if_pos (by simp)]
  dsimp only
  rw [hback, show (front ++ octet '*' :: back).length - back.length - 1 = front.length by simp; omega]
  simp

theorem freshName_target (out : Path) (a : Deposit) (n : Nat) :
    freshName (outputPattern (a.target out).path) n = a.temp n := by
  have hpattern : outputPattern (a.target out).path = (utf8 "." ++ a.base ++ utf8 ".") ++ octet '*' :: utf8 ".tmp" := by
    have hstar : utf8 ".*.tmp" = utf8 "." ++ octet '*' :: utf8 ".tmp" := by decide
    rw [outputPattern, OutputPath.base_path, hstar]
    simp [target]
  rw [freshName, hpattern, patternParts_star (by decide)]
  rfl

theorem slash_not_mem_pattern (out : Path) (a : Deposit) : Bytes.slash ∉ outputPattern (a.target out).path := by
  rw [outputPattern, OutputPath.base_path, List.mem_append, List.mem_append, not_or, not_or]
  exact ⟨⟨by decide, a.plain.no_slash⟩, by decide⟩

end Deposit

/-! ## The directory -/

/-- A directory that several files are written below. The components `front` of its path lead to the directory at
`origin`, and `more` from there on to directories that may not be there yet. -/
structure Yard where
  out : Path
  home : Place
  front : List Bytes
  more : List Bytes
  origin : Place
  lead_eq : (if Path.isAbsolute out then [[]] else []) ++ Path.cleanComponents out = front ++ more
  names : ∀ c ∈ more, Names c

namespace Yard

variable {y : Yard} {a b : Deposit} {d d' d'' : Disk} {q : Place}

def start (y : Yard) : Place := if Path.isAbsolute y.out then [] else y.home

def place (y : Yard) : Place := y.origin ++ y.more

abbrev target (y : Yard) (a : Deposit) : OutputPath := a.target y.out

def seat (y : Yard) (a : Deposit) : Place := y.place ++ a.dirs

/-- The directory is there or can be made, and there are no links below it. -/
structure Stands (y : Yard) (d : Disk) : Prop where
  tree : d.IsTree
  cwd : d.cwd = y.home
  route : d.Leads true maxLinks y.start y.front (.node y.origin .directory)
  clear : ∀ q, Between y.origin y.more q → d.node? q = none ∨ d.node? q = some .directory
  unlinked : ∀ below target, below ≠ [] → d.node? (y.place ++ below) ≠ some (.link target)

/-- The places of the directories that are made for a file. -/
def Way (y : Yard) (a : Deposit) (q : Place) : Prop := Between y.origin (y.more ++ a.dirs) q

/-- The places of a file and of the fresh files that become it. -/
def Own (y : Yard) (a : Deposit) (q : Place) : Prop :=
  ∃ x, q = y.seat a ++ [x] ∧ (x = a.base ∨ ∃ n, x = a.temp n)

theorem Own.not_way (h : y.Own a q) (hab : ¬ a.below <+: b.dirs) : ¬ y.Way b q := by
  rintro ⟨-, -, hle⟩
  obtain ⟨x, rfl, hx⟩ := h
  have hdirs : a.dirs ++ [x] <+: b.dirs := by
    rw [seat, place, List.append_assoc, List.append_assoc, List.prefix_append_right_inj,
      List.prefix_append_right_inj] at hle
    exact hle
  rcases hx with rfl | ⟨n, rfl⟩
  · exact hab hdirs
  · have hhidden := b.visible (a.temp n) (hdirs.subset (by simp))
    rw [a.isHidden_temp] at hhidden
    cases hhidden

theorem Own.not_self_way (h : y.Own a q) : ¬ y.Way a q := h.not_way a.not_below_self

theorem Own.not_between (h : y.Own a q) : ¬ Between y.origin y.more q := by
  rintro ⟨-, -, hle⟩
  obtain ⟨x, rfl, -⟩ := h
  have hlen := hle.length_le
  simp only [seat, place, List.length_append, List.length_singleton] at hlen
  omega

theorem Own.disjoint (h : y.Own a q) (hab : a.below ≠ b.below) : ¬ y.Own b q := by
  rintro ⟨x', hq, hx'⟩
  obtain ⟨x, rfl, hx⟩ := h
  obtain ⟨hdirs, hnames⟩ := List.append_inj' hq rfl
  obtain rfl := List.singleton_inj.1 hnames
  have hbase : a.base ≠ b.base := by
    intro hbase
    refine hab ?_
    rw [Deposit.below, Deposit.below, hbase, List.append_cancel_left hdirs]
  rcases hx with rfl | ⟨n, rfl⟩
  · rcases hx' with heq | ⟨m, heq⟩
    · exact hbase heq
    · exact b.temp_ne_base a m heq.symm
  · rcases hx' with heq | ⟨m, heq⟩
    · exact a.temp_ne_base b n heq
    · exact hbase (Deposit.base_eq_of_temp heq)

/-! ## What the writers do to each other -/

/-- Nothing, or a file. -/
def Loose (n : Option Node) : Prop := n = none ∨ ∃ content time, n = some (.file content time)

/-- Between the trees, directories were made on the way to a file, or its own places were filled or left. -/
structure Changes (y : Yard) (a : Deposit) (d d' : Disk) : Prop where
  tree : d.IsTree → d'.IsTree
  cwd : d'.cwd = d.cwd
  node : ∀ q, d'.node? q = d.node? q ∨ (y.Way a q ∧ d.node? q = none ∧ d'.node? q = some .directory) ∨
    (y.Own a q ∧ Loose (d.node? q) ∧ Loose (d'.node? q))

/-- Between the trees, nothing happened that writing a file could not do without. -/
structure Yields (y : Yard) (a : Deposit) (d d' : Disk) : Prop where
  stands : y.Stands d → y.Stands d'
  directory : ∀ q, d.node? q = some .directory → d'.node? q = some .directory
  way : ∀ q, y.Way a q → d'.node? q = d.node? q ∨ (d.node? q = none ∧ d'.node? q = some .directory)
  own : ∀ q, y.Own a q → d'.node? q = d.node? q

theorem Changes.refl (y : Yard) (a : Deposit) (d : Disk) : y.Changes a d d := ⟨id, rfl, fun _ => .inl rfl⟩

theorem Yields.refl (y : Yard) (a : Deposit) (d : Disk) : y.Yields a d d :=
  ⟨id, fun _ => id, fun _ _ => .inl rfl, fun _ _ => rfl⟩

theorem Yields.trans (h : y.Yields a d d') (h' : y.Yields a d' d'') : y.Yields a d d'' where
  stands hd := h'.stands (h.stands hd)
  directory q hq := h'.directory q (h.directory q hq)
  way q hway := by
    rcases h.way q hway with hsame | ⟨hnone, hdir⟩
    · rw [← hsame]
      exact h'.way q hway
    · exact .inr ⟨hnone, h'.directory q hdir⟩
  own q hown := (h'.own q hown).trans (h.own q hown)

namespace Changes

theorem keeps (h : y.Changes a d d') {n : Node} (hn : ∀ content time, n ≠ .file content time)
    (hq : d.node? q = some n) : d'.node? q = some n := by
  rcases h.node q with hsame | ⟨-, hnone, -⟩ | ⟨-, hnone | ⟨content, time, hfile⟩, -⟩
  · rw [hsame, hq]
  · rw [hq] at hnone
    cases hnone
  · rw [hq] at hnone
    cases hnone
  · rw [hq] at hfile
    cases hfile
    exact absurd rfl (hn content time)

theorem unlinked (h : y.Changes a d d') {target : Path} (hq : d'.node? q = some (.link target)) :
    d.node? q = some (.link target) := by
  rcases h.node q with hsame | ⟨-, -, hdir⟩ | ⟨-, -, hnone | ⟨content, time, hfile⟩⟩
  · rw [← hsame, hq]
  · rw [hdir] at hq
    cases hq
  · rw [hnone] at hq
    cases hq
  · rw [hfile] at hq
    cases hq

theorem stands (h : y.Changes a d d') (hd : y.Stands d) : y.Stands d' where
  tree := h.tree hd.tree
  cwd := h.cwd.trans hd.cwd
  route := hd.route.keeps (fun p hp => h.keeps (by simp) hp) (fun p target hp => h.keeps (by simp) hp)
    (h.keeps (by simp) hd.route.node?_place) fun _ => Iff.rfl
  clear q hq := by
    rcases h.node q with hsame | ⟨-, -, hdir⟩ | ⟨hown, -, -⟩
    · rw [hsame]
      exact hd.clear q hq
    · exact .inr hdir
    · exact absurd hq hown.not_between
  unlinked below target hbelow hlink := hd.unlinked below target hbelow (h.unlinked hlink)

theorem yields_of_own (h : y.Changes a d d') (hab : ¬ a.below <+: b.dirs)
    (hown : ∀ q, y.Own b q → d'.node? q = d.node? q) : y.Yields b d d' where
  stands := h.stands
  directory q hq := h.keeps (by simp) hq
  way q hway := by
    rcases h.node q with hsame | ⟨-, hnew⟩ | ⟨hown, -, -⟩
    · exact .inl hsame
    · exact .inr hnew
    · exact absurd hway (hown.not_way hab)
  own := hown

theorem yields (h : y.Changes a d d') (hab : a.Apart b) : y.Yields b d d' := by
  refine h.yields_of_own hab.not_above fun q hown => ?_
  rcases h.node q with hsame | ⟨hway, -, -⟩ | ⟨hown', -, -⟩
  · exact hsame
  · exact absurd hway (hown.not_way hab.not_below)
  · exact absurd hown (hown'.disjoint hab.ne)

end Changes

/-! ## Where the paths of a file lead -/

section Paths

variable {cs below rest : List Bytes} {follow : Bool} {f : Found} {P : Place}

theorem named_of_mem (y : Yard) (hbelow : ∀ c ∈ below, Path.Plain c) :
    ∀ c ∈ y.more ++ below, (c ≠ [] ∧ c ≠ Path.dot) ∧ c ≠ Path.dotDot := by
  intro c hc
  rcases List.mem_append.1 hc with hc | hc
  · exact ⟨⟨(y.names c hc).ne_nil, (y.names c hc).ne_dot⟩, (y.names c hc).ne_dotDot⟩
  · exact ⟨⟨(hbelow c hc).ne_nil, (hbelow c hc).ne_dot⟩, (hbelow c hc).ne_dotDot⟩

namespace Stands

theorem unlinked_below (h : y.Stands d) (hbelow : ∀ c ∈ below, Path.Plain c) :
    d.Unlinked y.origin (y.more ++ below) := by
  intro front hfront target
  rw [spot_of_named fun c hc => y.named_of_mem hbelow c (hfront.subset hc)]
  rcases prefix_append_cases hfront with hshort | ⟨back, hback, -, rfl⟩
  · by_cases hnil : front = []
    · have horigin : d.node? y.origin = some .directory := h.route.node?_place
      simp [hnil, horigin]
    · have hbetween : Between y.origin y.more (y.origin ++ front) :=
        ⟨List.prefix_append _ _, by simpa using hnil, (List.prefix_append_right_inj _).2 hshort⟩
      rcases h.clear _ hbetween with hnone | hdir
      · simp [hnone]
      · simp [hdir]
  · rw [← List.append_assoc]
    exact h.unlinked back target hback

/-- Behind the directory that stands, a walk leads down through directories and ends at the place of the names. -/
theorem place_of_leads (h : y.Stands d) (hbelow : ∀ c ∈ below, Path.Plain c) (hcs : cs <+: y.more ++ below)
    (hne : cs ≠ []) (hl : d.Leads follow maxLinks y.start (y.front ++ cs) f) :
    f.place = y.origin ++ cs ∧ ∀ c ∈ cs, Names c := by
  have hnamed : ∀ c ∈ cs, (c ≠ [] ∧ c ≠ Path.dot) ∧ c ≠ Path.dotDot :=
    fun c hc => y.named_of_mem hbelow c (hcs.subset hc)
  have hfree : d.Unlinked y.origin cs := fun front hfront => h.unlinked_below hbelow front (hfront.trans hcs)
  obtain ⟨c, hc⟩ := List.exists_mem_of_ne_nil cs hne
  obtain ⟨q, links, hroute, hrest⟩ := hl.split ⟨c, hc, (hnamed c hc).1.1⟩
  cases hroute.unique h.route
  refine ⟨?_, hrest.names_of_unlinked hfree hnamed⟩
  rw [hrest.place_eq_spot hfree, spot_of_named hnamed]

theorem leads (h : y.Stands d) (hnames : ∀ c ∈ cs, Names c) (hdir : d.node? (y.origin ++ cs) = some .directory)
    (hne : cs ++ rest ≠ []) (hrest : ∀ links, d.Leads follow links (y.origin ++ cs) rest f) :
    d.Leads follow maxLinks y.start (y.front ++ (cs ++ rest)) f := by
  obtain ⟨links, happend⟩ := h.route.append
  exact happend follow _ f hne (leads_down h.tree hdir hnames (hrest links))

theorem leads_directory_iff (h : y.Stands d) (hbelow : ∀ c ∈ below, Path.Plain c) (hcs : cs <+: y.more ++ below) :
    d.Leads true maxLinks y.start (y.front ++ cs) (.node P .directory) ↔
      P = y.origin ++ cs ∧ (∀ c ∈ cs, Names c) ∧ d.node? (y.origin ++ cs) = some .directory := by
  by_cases hne : cs = []
  · subst hne
    rw [List.append_nil, List.append_nil]
    constructor
    · intro hl
      cases hl.unique h.route
      exact ⟨rfl, by simp, hl.node?_place⟩
    · rintro ⟨rfl, -, -⟩
      exact h.route
  · constructor
    · intro hl
      obtain ⟨rfl, hnames⟩ := h.place_of_leads hbelow hcs hne hl
      exact ⟨rfl, hnames, hl.node?_place⟩
    · rintro ⟨rfl, hnames, hdir⟩
      have hl : d.Leads true maxLinks y.start (y.front ++ (cs ++ [])) (.node (y.origin ++ cs) .directory) :=
        h.leads hnames hdir (by simpa using hne) fun _ => .here hdir
      rwa [List.append_nil] at hl

end Stands

/-! ## The way to a file -/

theorem lead_target (y : Yard) (a : Deposit) :
    (y.target a).lead (y.target a).above.length = y.front ++ (y.more ++ a.dirs) := by
  rw [OutputPath.lead, List.take_length]
  show (if Path.isAbsolute y.out then [[]] else []) ++ (Path.cleanComponents y.out ++ a.dirs) = _
  rw [← List.append_assoc, y.lead_eq, List.append_assoc]

/-- A part of the way to the directory of a file leads no further than what stands, or down from there. -/
theorem lead_cases (y : Yard) (a : Deposit) (k : Nat) : (y.target a).lead k <+: y.front ∨
    ∃ cs, cs ≠ [] ∧ cs <+: y.more ++ a.dirs ∧ (y.target a).lead k = y.front ++ cs := by
  refine prefix_append_cases ?_
  rw [← y.lead_target, OutputPath.lead_eq k]
  exact List.prefix_append _ _

namespace Stands

theorem start_target (h : y.Stands d) (a : Deposit) : (y.target a).start d = y.start := by
  rw [OutputPath.start, h.cwd]
  rfl

theorem opens_iff (h : y.Stands d) : (y.target a).Opens d P ↔
    P = y.seat a ∧ (∀ c ∈ a.dirs, Names c) ∧ d.node? (y.seat a) = some .directory := by
  rw [OutputPath.Opens, h.start_target, y.lead_target, h.leads_directory_iff a.plain_dirs List.prefix_rfl, seat, place,
    List.append_assoc, List.forall_mem_append, and_iff_right y.names]

theorem leads_front (h : y.Stands d) {k : Nat} (hk : (y.target a).lead k <+: y.front) :
    ∃ P, d.Leads true maxLinks y.start ((y.target a).lead k) (.node P .directory) := by
  obtain ⟨rest, hrest⟩ := hk
  cases rest with
  | nil =>
    rw [List.append_nil] at hrest
    exact ⟨_, hrest ▸ h.route⟩
  | cons c rest =>
    have hc : c ∈ (y.target a).above := by
      have hlead := (y.target a).lead_eq k
      rw [y.lead_target, ← hrest, List.append_assoc] at hlead
      have hdrop := List.append_cancel_left hlead
      exact List.mem_of_mem_drop (hdrop ▸ List.mem_append_left _ List.mem_cons_self)
    have hroute := h.route
    rw [← hrest] at hroute
    obtain ⟨P, -, hleads, -⟩ := hroute.split ⟨c, List.mem_cons_self, ((y.target a).named_of_mem hc).1⟩
    exact ⟨P, hleads⟩

end Stands

end Paths

end Yard

end ShaderForge
