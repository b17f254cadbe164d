import Mathlib.Logic.Function.Basic
import ShaderForge.Proofs.Files.Quiet
import ShaderForge.Proofs.Text.Bytes

/-!
# ShaderForge.Proofs.Files.WorkDirectory

A fresh directory and the files in it.

* `WorkPath`     — a path that ends in a name of its own.
* `Disk.Works`   — the path leads to a directory that holds the given files and nothing else.
* `Disk.Works.find_file` — where the path of a file in the directory leads.
* `Disk.Works.putFile`, `Disk.Works.erase`, `Disk.Works.of_quiet` — what changes do to the files.
* `Disk.mkdirTemp_eq_ok`, `Disk.works_of_store` — how such a directory comes about.
-/

namespace ShaderForge

/-- A path whose last component is a name that stands for itself. -/
structure WorkPath where
  dir : Path
  front : List Bytes
  base : Bytes
  ne_nil : dir ≠ []
  components_eq : Path.components dir = front ++ [base]
  plain : Path.Plain base

namespace WorkPath

/-- The components that lead up to the name, once the path is cleaned. -/
def lead (t : WorkPath) : List Bytes :=
  (if Path.isAbsolute t.dir then [[]] else []) ++ Path.cleaned (Path.isAbsolute t.dir) t.front

def file (t : WorkPath) (x : Bytes) : Path := Path.join t.dir x

theorem components_file (t : WorkPath) {x : Bytes} (hx : Path.Plain x) :
    Path.components (t.file x) = t.lead ++ [t.base, x] := by
  rw [file, Path.components_join t.ne_nil t.components_eq t.plain hx, lead, List.append_assoc]

theorem start_file (t : WorkPath) {x : Bytes} (hx : Path.Plain x) (d : Disk) :
    d.start (t.file x) = d.start t.dir := by
  rw [Disk.start, Disk.start, file, Path.isAbsolute_join t.ne_nil hx.ne_nil]

theorem file_ne (t : WorkPath) {x word : Bytes} (hx : Path.Plain x) (hword : Bytes.slash ∉ word) : t.file x ≠ word := by
  intro heq
  have hcomponents := t.components_file hx
  rw [heq, Path.components_of_not_mem hword] at hcomponents
  simpa using congrArg List.length hcomponents

/-- A file in the directory has a path that is short enough to be looked up. -/
structure Reaches (t : WorkPath) (x : Bytes) : Prop where
  admissible : Disk.Admissible (t.file x)
  base_short : t.base.length ≤ Disk.maxName
  short : x.length ≤ Disk.maxName

end WorkPath

theorem Path.Plain.names {c : Bytes} (h : Path.Plain c) (hlen : c.length ≤ Disk.maxName) : Disk.Names c :=
  ⟨h.ne_nil, h.ne_dot, h.ne_dotDot, hlen⟩

namespace Disk

/-- A directory with files in it and nothing else. -/
def fileTree (place : Place) (files : Bytes → Option Node) (p : Place) : Option Node :=
  if p = place then some .directory
  else match p.getLast? with
    | some x => if p.dropLast = place then files x else none
    | none => none

section FileTree

variable {place : Place} {files : Bytes → Option Node}

theorem fileTree_self : fileTree place files place = some .directory := if_pos rfl

theorem fileTree_file (x : Bytes) : fileTree place files (place ++ [x]) = files x := by
  simp [fileTree]

theorem fileTree_of_ne {p : Place} (h : p ≠ place) (h' : ∀ x, p ≠ place ++ [x]) :
    fileTree place files p = none := by
  unfold fileTree
  rw [if_neg h]
  split
  · rename_i x hx
    rw [if_neg]
    rintro rfl
    exact h' x (List.dropLast_append_getLast? x hx).symm
  · rfl

theorem fileTree_empty (p : Place) :
    fileTree place (fun _ => none) p = if p = place then some .directory else none := by
  unfold fileTree
  split
  · rfl
  · split
    · split <;> rfl
    · rfl

theorem fileTree_update (x : Bytes) (n : Option Node) (p : Place) :
    fileTree place (Function.update files x n) p =
      if p = place ++ [x] then n else fileTree place files p := by
  by_cases hp : p = place ++ [x]
  · rw [if_pos hp, hp, fileTree_file, Function.update_self]
  · rw [if_neg hp]
    by_cases hself : p = place
    · rw [hself, fileTree_self, fileTree_self]
    · by_cases hfile : ∃ y, p = place ++ [y]
      · obtain ⟨y, rfl⟩ := hfile
        have hne : y ≠ x := fun hyx => hp (by rw [hyx])
        rw [fileTree_file, fileTree_file, Function.update_of_ne hne]
      · have hnone : ∀ y, p ≠ place ++ [y] := fun y hy => hfile ⟨y, hy⟩
        rw [fileTree_of_ne hself hnone, fileTree_of_ne hself hnone]

end FileTree

/-- The path leads to a directory, inside `place`, that holds the given files and nothing else; its name stands
nowhere else in the tree. -/
structure Works (d : Disk) (t : WorkPath) (place : Place) (files : Bytes → Option Node) : Prop where
  holds : d.Holds t.base (fileTree (place ++ [t.base]) files)
  route : d.Leads true maxLinks (d.start t.dir) t.lead (.node place .directory)
  regular : ∀ x n, files x = some n → ∃ content time, n = .file content time

variable {d d' : Disk} {t : WorkPath} {place : Place} {files : Bytes → Option Node} {x : Bytes}

namespace Works

theorem node?_dir (h : d.Works t place files) : d.node? (place ++ [t.base]) = some .directory := by
  rw [h.holds.places _ (by simp), fileTree_self]

theorem node?_file (h : d.Works t place files) (x : Bytes) :
    d.node? (place ++ [t.base] ++ [x]) = files x := by
  rw [h.holds.places _ (by simp), fileTree_file]

theorem node?_place (h : d.Works t place files) : d.node? place = some .directory :=
  h.route.node?_place

def found (t : WorkPath) (place : Place) (x : Bytes) : Option Node → Found
  | some n => .node (place ++ [t.base] ++ [x]) n
  | none => .vacant (place ++ [t.base] ++ [x]) false

theorem find_file (h : d.Works t place files) (hx : Path.Plain x) (hr : t.Reaches x) (follow : Bool) :
    d.find follow (t.file x) = .ok (found t place x (files x)) := by
  have hbase := t.plain.names hr.base_short
  have hname := hx.names hr.short
  obtain ⟨links, hroute⟩ := h.route.append
  have hlast : d.Leads follow links (place ++ [t.base]) [x] (found t place x (files x)) := by
    have hnode := h.node?_file x
    cases hfile : files x with
    | none =>
      rw [hfile] at hnode
      exact .vacant h.node?_dir hname hnode (by simp)
    | some n =>
      rw [hfile] at hnode
      obtain ⟨content, time, rfl⟩ := h.regular x n hfile
      exact .down h.node?_dir hname hnode (fun t ht => by cases ht) (.here hnode)
  rw [find_eq_ok_iff, t.components_file hx, t.start_file hx]
  refine ⟨hr.admissible, hroute follow _ _ (by simp) ?_⟩
  exact .down h.node?_place hbase h.node?_dir (fun t ht => by cases ht) hlast

theorem reaches_of_find (h : d.Works t place files) (hx : Path.Plain x) {follow : Bool} {f : Found}
    (hf : d.find follow (t.file x) = .ok f) : t.Reaches x := by
  obtain ⟨hadm, hleads⟩ := find_eq_ok_iff.1 hf
  rw [t.components_file hx, t.start_file hx] at hleads
  obtain ⟨q, links, hroute, hmore⟩ := hleads.split ⟨x, by simp, hx.ne_nil⟩
  cases h.route.unique hroute
  have hlast := hmore.down_plain t.plain (by rw [h.node?_dir]; simp) (by simp [hx.ne_nil])
  exact ⟨hadm, (hmore.names t.plain).short, (hlast.names hx).short⟩

/-- A node that is no directory and no link at a file of the directory, or none. -/
theorem of_update (h : d.Works t place files) {n : Option Node}
    (hn : ∀ m, n = some m → ∃ content time, m = .file content time)
    (hnode : ∀ p, d'.node? p = if p = place ++ [t.base] ++ [x] then n else d.node? p)
    (hcwd : d'.cwd = d.cwd) : d'.Works t place (Function.update files x n) := by
  have hother : ∀ p m, d.node? p = some m → (∀ content time, m ≠ .file content time) →
      d'.node? p = some m := by
    intro p m hp hm
    rw [hnode, if_neg, hp]
    rintro rfl
    rw [h.node?_file] at hp
    obtain ⟨content, time, rfl⟩ := h.regular x m hp
    exact hm content time rfl
  have hdirs : ∀ p, d.node? p = some .directory → d'.node? p = some .directory :=
    fun p hp => hother p _ hp (by simp)
  refine ⟨⟨fun p hp => ?_, fun p target hp => ?_, hcwd ▸ h.holds.cwd⟩, ?_, fun y m hy => ?_⟩
  · rw [hnode, fileTree_update, h.holds.places p hp]
  · rw [hnode] at hp
    split at hp
    · obtain ⟨content, time, heq⟩ := hn _ hp
      cases heq
    · exact h.holds.links p target hp
  · rw [show d'.start t.dir = d.start t.dir by rw [start, start, hcwd]]
    exact h.route.keeps hdirs (fun p target hp => hother p _ hp (by simp)) (hdirs _ h.node?_place)
      fun target => Iff.rfl
  · by_cases hyx : y = x
    · rw [hyx, Function.update_self] at hy
      exact hn m hy
    · rw [Function.update_of_ne hyx] at hy
      exact h.regular y m hy

theorem putFile (h : d.Works t place files) (x content : Bytes) :
    (d.putFile (place ++ [t.base] ++ [x]) content).Works t place
      (Function.update files x (some (.file content d.clock))) := by
  refine h.of_update (fun m hm => ?_) (fun p => node?_putFile d (by simp) content p) (cwd_put d _ _)
  cases hm
  exact ⟨content, d.clock, rfl⟩

theorem erase (h : d.Works t place files) (x : Bytes) :
    (d.erase (place ++ [t.base] ++ [x])).Works t place (Function.update files x none) := by
  refine h.of_update (fun m hm => by cases hm) (fun p => ?_) rfl
  rw [node?_erase d (by simp)]
  by_cases hp : p = place ++ [t.base] ++ [x]
  · rw [if_pos hp, if_pos (hp ▸ List.prefix_rfl)]
  · rw [if_neg hp]
    split
    · -- nothing stands below a file
      rename_i hbelow
      have hlen := hbelow.length_le
      have hmem : t.base ∈ p := hbelow.subset (by simp)
      rw [h.holds.places p hmem, fileTree_of_ne]
      · rintro rfl
        simp at hlen
      · intro y hy
        exact hp (hbelow.eq_of_length (by simp [hy])).symm
    · rfl

theorem of_quiet (h : d.Works t place files) (hq : Quiet (t.base ∈ ·) d d') : d'.Works t place files where
  holds := h.holds.of_quiet hq
  route := by
    rw [hq.start]
    exact h.route.keeps (fun _ => hq.directory) (fun _ _ => hq.link) (hq.directory h.node?_place)
      fun target => Iff.rfl
  regular := h.regular

/-! ## The files -/

theorem store_file (h : d.Works t place files) (hx : Path.Plain x) (hr : t.Reaches x) (content : Bytes) :
    d.store (t.file x) content = .ok (d.putFile (place ++ [t.base] ++ [x]) content) := by
  have hfind := h.find_file hx hr true
  cases hfile : files x with
  | none =>
    rw [hfile] at hfind
    simp only [store, hfind, found]
  | some n =>
    obtain ⟨old, time, rfl⟩ := h.regular x n hfile
    rw [hfile] at hfind
    simp only [store, hfind, found]

theorem contents_file (h : d.Works t place files) (hx : Path.Plain x) (hr : t.Reaches x) {content : Bytes}
    {time : Int} (hfile : files x = some (.file content time)) : d.contents (t.file x) = .ok content := by
  have hfind := h.find_file hx hr true
  rw [hfile] at hfind
  simp only [contents, inspect, hfind, found]

theorem remove_file (h : d.Works t place files) (hx : Path.Plain x) (hr : t.Reaches x) {content : Bytes}
    {time : Int} (hfile : files x = some (.file content time)) :
    d.remove (t.file x) = .ok (d.erase (place ++ [t.base] ++ [x])) := by
  have hfind := h.find_file hx hr false
  rw [hfile] at hfind
  simp only [remove, inspect, hfind, found]

theorem file_of_stat (h : d.Works t place files) (hx : Path.Plain x) {n : Node}
    (hstat : d.stat (t.file x) = .ok n) : t.Reaches x ∧ files x = some n := by
  cases hf : d.find true (t.file x) with
  | error cause =>
    simp only [stat, inspect, hf] at hstat
    cases hstat
  | ok f =>
    have hr := h.reaches_of_find hx hf
    rw [h.find_file hx hr] at hf
    refine ⟨hr, ?_⟩
    cases hfile : files x with
    | none =>
      rw [hfile] at hf
      simp only [stat, inspect, h.find_file hx hr, hfile, found] at hstat
      cases hstat
    | some m =>
      simp only [stat, inspect, h.find_file hx hr, hfile, found] at hstat
      cases hstat
      rfl

theorem reaches_of_store (h : d.Works t place files) (hx : Path.Plain x) {content : Bytes}
    (hstored : d.store (t.file x) content = .ok d') : t.Reaches x := by
  cases hf : d.find true (t.file x) with
  | error cause =>
    simp only [store, hf] at hstored
    cases hstored
  | ok f => exact h.reaches_of_find hx hf

end Works

/-! ## A fresh directory -/

/-- Something stands at the path. -/
def Taken (d : Disk) (p : Path) : Prop := ∃ place n, d.find false p = .ok (.node place n)

/-- A name that the tree mentions nowhere. -/
abbrev Unmentioned (d : Disk) (name : Bytes) : Prop := d.Holds name fun _ => none

theorem unmentioned_of_nodes {name : Bytes} (hcwd : name ∉ d.cwd) (hnodes : ∀ e ∈ d.nodes,
    name ∉ e.1 ∧ ∀ target, e.2 = .link target → name ∉ Path.components target) : d.Unmentioned name where
  places p hp := by
    rw [node?, if_neg (List.ne_nil_of_mem hp)]
    refine List.lookup_eq_none_iff.2 fun e he => ?_
    rw [bne_iff_ne]
    rintro rfl
    exact (hnodes e he).1 hp
  links p target ht := by
    unfold node? at ht
    split at ht
    · cases ht
    · obtain ⟨front, back, heq, -⟩ := List.lookup_eq_some_iff.1 ht
      exact (hnodes (p, .link target) (by simp [heq])).2 target rfl
  cwd := hcwd

/-- The name that a pattern gives for a numeral. -/
def freshName (pattern : Bytes) (n : Nat) : Bytes :=
  (patternParts pattern).1 ++ Bytes.ofNat n ++ (patternParts pattern).2

/-- The numeral stands behind the pattern, or in the place of its last asterisk. -/
theorem patternParts_cases (pattern : Bytes) : patternParts pattern = (pattern, []) ∨
    pattern = (patternParts pattern).1 ++ octet '*' :: (patternParts pattern).2 := by
  unfold patternParts
  split
  · rename_i hstar
    obtain ⟨back, front, hreverse, hback⟩ := List.eq_append_cons_of_mem (List.mem_reverse.2 hstar)
    have htake : pattern.reverse.takeWhile (· ≠ octet '*') = back := by
      have hall : ∀ b ∈ back, decide (b ≠ octet '*') = true := by
        rintro b hb
        rw [decide_eq_true_eq]
        rintro rfl
        exact hback hb
      rw [hreverse, List.takeWhile_append_of_pos hall, List.takeWhile_cons_of_neg (by simp), List.append_nil]
    have hpattern : pattern = front.reverse ++ octet '*' :: back.reverse := by
      rw [← List.reverse_reverse pattern, hreverse]
      simp
    have hfront : pattern.take (pattern.length - back.reverse.length - 1) = front.reverse := by
      have hlength := congrArg List.length hpattern
      rw [List.length_append, List.length_cons] at hlength
      rw [show pattern.length - back.reverse.length - 1 = front.reverse.length by omega, hpattern, List.take_left]
    right
    dsimp only
    rw [htake, hfront]
    exact hpattern
  · exact .inl rfl

theorem mem_freshName {pattern : Bytes} {b : UInt8} (h : b ∈ pattern) (hb : b ≠ octet '*') (n : Nat) :
    b ∈ freshName pattern n := by
  rw [freshName, List.mem_append, List.mem_append]
  obtain hparts | hparts := patternParts_cases pattern
  · rw [hparts]
    exact .inl (.inl h)
  · rw [hparts, List.mem_append, List.mem_cons] at h
    rcases h with hfront | hstar | hback
    · exact .inl (.inl hfront)
    · exact absurd hstar hb
    · exact .inr hback

theorem length_freshName (pattern : Bytes) (n : Nat) :
    pattern.length + (Bytes.ofNat n).length ≤ (freshName pattern n).length + 1 := by
  rw [freshName, List.length_append, List.length_append]
  obtain hparts | hparts := patternParts_cases pattern
  · rw [hparts]
    dsimp only
    omega
  · have hlength := congrArg List.length hparts
    rw [List.length_append, List.length_cons] at hlength
    omega

/-- The first numeral whose name is not taken in the parent. -/
structure Draws (d : Disk) (parent : Path) (pattern : Bytes) (n : Nat) : Prop where
  numeral : firstNumeral ≤ n
  free : ¬ d.Taken (inside parent (freshName pattern n))
  taken : ∀ m, firstNumeral ≤ m → m < n → d.Taken (inside parent (freshName pattern m))

theorem Taken.of_quiet {away : Place → Prop} (hq : Quiet away d d') {p : Path} (h : d.Taken p) : d'.Taken p := by
  obtain ⟨q, n, hf⟩ := h
  obtain ⟨hadm, hleads⟩ := find_eq_ok_iff.1 hf
  obtain ⟨n', hleads', -⟩ := hq.leads hleads
  rw [← hq.start] at hleads'
  exact ⟨q, n', find_eq_ok_iff.2 ⟨hadm, hleads'⟩⟩

theorem mkdir_eq_ok {p : Path} (h : d.mkdir p = .ok d') :
    ∃ q asDirectory, d.find false p = .ok (.vacant q asDirectory) ∧ d' = d.put q .directory := by
  unfold mkdir at h
  split at h
  · rename_i q asDirectory hf
    cases h
    exact ⟨q, asDirectory, hf, rfl⟩
  · cases h
  · cases h

/-- A directory that is not made because of what is there finds its path taken. -/
theorem taken_of_mkdir {p : Path} {e : FileError} (h : d.mkdir p = .error e) (he : e.cause = .exists) :
    d.Taken p := by
  unfold mkdir at h
  split at h
  · cases h
  · rename_i q n hf
    exact ⟨q, n, hf⟩
  · rename_i cause hf
    cases h
    cases he
    exact absurd hf (find_ne_exists d false p)

/-- The numeral is the first that is not refused because its name is taken. -/
theorem tryNumerals_eq_ok {name : Nat → Path} {make : Path → Except FileError Disk} {tries n : Nat}
    {p : Path} (h : tryNumerals name make tries n = .ok (p, d')) :
    ∃ m, n ≤ m ∧ p = name m ∧ make p = .ok d' ∧
      ∀ k, n ≤ k → k < m → ∃ e, make (name k) = .error e ∧ e.cause = .exists := by
  induction tries generalizing n with
  | zero =>
    rw [tryNumerals] at h
    cases hmake : make (name n) with
    | error e =>
      rw [hmake] at h
      cases h
    | ok d'' =>
      rw [hmake] at h
      cases h
      exact ⟨n, Nat.le_refl n, rfl, hmake, fun k hk hlt => by omega⟩
  | succ tries ih =>
    rw [tryNumerals] at h
    split at h
    · rename_i hmake
      cases h
      exact ⟨n, Nat.le_refl n, rfl, hmake, fun k hk hlt => by omega⟩
    · rename_i e hmake
      split at h
      · rename_i hexists
        obtain ⟨m, hm, hp, hmade, hrefused⟩ := ih h
        refine ⟨m, by omega, hp, hmade, fun k hk hlt => ?_⟩
        rcases Nat.eq_or_lt_of_le hk with rfl | hk
        · exact ⟨e, hmake, hexists⟩
        · exact hrefused k hk hlt
      · cases h

theorem mkdirTemp_eq_ok {parent dir : Path} {pattern : Bytes}
    (h : d.mkdirTemp parent pattern = .ok (dir, d')) :
    Bytes.slash ∉ pattern ∧ ∃ n, d.Draws parent pattern n ∧ dir = inside parent (freshName pattern n) ∧
      d.mkdir dir = .ok d' := by
  unfold mkdirTemp at h
  split at h
  · cases h
  rename_i hslash
  refine ⟨fun hmem => hslash (Bytes.contains_singleton.2 hmem), ?_⟩
  simp only at h
  split at h
  · rename_i made hmade
    cases h
    obtain ⟨n, hn, hdir, hmake, hrefused⟩ := tryNumerals_eq_ok hmade
    refine ⟨n, ⟨hn, ?_, fun m hm hlt => ?_⟩, hdir, hmake⟩
    · rintro ⟨place, node, htaken⟩
      obtain ⟨q, asDirectory, hvacant, -⟩ := mkdir_eq_ok hmake
      rw [hdir] at hvacant
      cases htaken.symm.trans hvacant
    · obtain ⟨e, he, hexists⟩ := hrefused m hm hlt
      exact taken_of_mkdir he hexists
  · split at h
    · split at h
      · split at h <;> cases h
      · cases h
    · cases h

theorem plain_freshName {pattern : Bytes} (h : Bytes.slash ∉ pattern) (n : Nat) :
    Path.Plain (freshName pattern n) := by
  obtain ⟨b, hb⟩ := List.exists_mem_of_ne_nil _ (Bytes.ofNat_ne_nil n)
  have hdigit := Bytes.isDigit_of_mem_ofNat b hb
  have hmem : b ∈ freshName pattern n := by simp [freshName, hb]
  refine ⟨List.ne_nil_of_mem hmem, ?_, ?_, ?_⟩
  · intro hdot
    rw [hdot] at hmem
    obtain rfl := List.mem_singleton.1 hmem
    exact absurd hdigit (by decide)
  · intro hdot
    rw [hdot, show Path.dotDot = [octet '.', octet '.'] by decide] at hmem
    obtain rfl : b = octet '.' := by simpa using hmem
    exact absurd hdigit (by decide)
  · intro hslash
    have hparts : ∀ c, c ∈ (patternParts pattern).1 ∨ c ∈ (patternParts pattern).2 → c ∈ pattern := by
      intro c hc
      obtain hwhole | hwhole := patternParts_cases pattern
      · rw [hwhole] at hc
        exact hc.resolve_right List.not_mem_nil
      · rw [hwhole, List.mem_append, List.mem_cons]
        exact hc.imp id .inr
    simp only [freshName, List.mem_append] at hslash
    rcases hslash with (hfront | hnum) | hback
    · exact h (hparts _ (.inl hfront))
    · exact absurd (Bytes.isDigit_of_mem_ofNat _ hnum) (by decide)
    · exact h (hparts _ (.inr hback))

def way (parent : Path) : List Bytes :=
  Path.components (if parent.getLast? = some Bytes.slash then parent.dropLast else parent)

theorem components_inside_eq (parent : Path) {base : Bytes} (hbase : Bytes.slash ∉ base) :
    Path.components (inside parent base) = way parent ++ [base] := by
  unfold inside way
  split
  · rename_i hlast
    obtain ⟨q, rfl⟩ := List.getLast?_eq_some_iff.1 hlast
    rw [List.append_assoc, List.singleton_append, Path.components_append_slash, Path.components_of_not_mem hbase,
      List.dropLast_concat]
  · rw [List.append_assoc, List.singleton_append, Path.components_append_slash, Path.components_of_not_mem hbase]

theorem components_inside (parent : Path) {base : Bytes} (hbase : Path.Plain base) :
    ∃ front, Path.components (inside parent base) = front ++ [base] :=
  ⟨way parent, components_inside_eq parent hbase.no_slash⟩

theorem Holds.not_taken {base : Bytes} (h : d.Unmentioned base) (hbase : Path.Plain base) (parent : Path) :
    ¬ d.Taken (inside parent base) := by
  rintro ⟨place, n, hf⟩
  obtain ⟨front, hfront⟩ := components_inside parent hbase
  obtain ⟨-, hleads⟩ := find_eq_ok_iff.1 hf
  rw [hfront] at hleads
  obtain ⟨q, links, -, hlast⟩ := hleads.split ⟨base, by simp, hbase.ne_nil⟩
  cases hlast.vacant_last hbase (h.places _ (by simp))

theorem exists_workPath (parent : Path) {base : Bytes} (hbase : Path.Plain base) :
    ∃ t : WorkPath, t.dir = inside parent base ∧ t.base = base := by
  obtain ⟨front, hfront⟩ := components_inside parent hbase
  refine ⟨⟨inside parent base, front, base, ?_, hfront, hbase⟩, rfl, rfl⟩
  intro hnil
  rw [hnil] at hfront
  have hlast := congrArg List.getLast? hfront
  rw [List.getLast?_concat] at hlast
  cases hlast
  exact hbase.ne_nil rfl

/-- A directory made under a name that nothing mentions is all that has the name. -/
theorem holds_of_mkdir {t : WorkPath} (h : d.Unmentioned t.base) (hmade : d.mkdir t.dir = .ok d') :
    ∃ place, d'.Holds t.base (fileTree (place ++ [t.base]) fun _ => none) ∧
      d' = d.put (place ++ [t.base]) .directory ∧ Admissible t.dir ∧ Names t.base ∧
      d.Leads true maxLinks (d.start t.dir) t.front (.node place .directory) := by
  obtain ⟨q, asDirectory, hf, rfl⟩ := mkdir_eq_ok hmade
  obtain ⟨hadm, hleads⟩ := find_eq_ok_iff.1 hf
  rw [t.components_eq] at hleads
  obtain ⟨place, links, hroute, hlast⟩ := hleads.split ⟨t.base, by simp, t.plain.ne_nil⟩
  have hvacant : ∀ p, t.base ∈ p → d.node? p = none := h.places
  cases hlast.vacant_last t.plain (hvacant _ (by simp))
  refine ⟨place, ⟨fun p hp => ?_, fun p target hp => ?_, ?_⟩, rfl, hadm, hlast.names t.plain, hroute⟩
  · rw [node?_put d (by simp), fileTree_empty, hvacant p hp]
  · rw [node?_put d (by simp)] at hp
    split at hp
    · cases hp
    · exact h.links p target hp
  · rw [cwd_put]
    exact h.cwd

/-- A path into the directory that leads anywhere leads there, although cleaning may have taken another way. -/
theorem works_of_find {t : WorkPath} (h : d.Holds t.base (fileTree (place ++ [t.base]) fun _ => none))
    (hx : Path.Plain x) {f : Found} (hf : d.find true (t.file x) = .ok f) :
    d.Works t place fun _ => none := by
  obtain ⟨-, hleads⟩ := find_eq_ok_iff.1 hf
  rw [t.components_file hx, t.start_file hx] at hleads
  obtain ⟨q, links, hroute, hmore⟩ := hleads.split ⟨x, by simp, hx.ne_nil⟩
  have hnode : d.node? (q ++ [t.base]) = _ := h.places _ (by simp)
  rw [fileTree_empty] at hnode
  have hdir := (hmore.down_plain t.plain (fun target => by rw [hnode]; split <;> simp)
    ⟨x, by simp, hx.ne_nil⟩).directory_of_cons
  rw [hnode] at hdir
  split at hdir
  · rename_i heq
    obtain rfl := List.append_cancel_right heq
    exact ⟨h, hroute, fun x n hn => by cases hn⟩
  · cases hdir

theorem works_of_store {t : WorkPath} (h : d.Holds t.base (fileTree (place ++ [t.base]) fun _ => none))
    (hx : Path.Plain x) {content : Bytes} (hstored : d.store (t.file x) content = .ok d') :
    d.Works t place fun _ => none := by
  cases hf : d.find true (t.file x) with
  | ok f => exact works_of_find h hx hf
  | error cause =>
    simp only [store, hf] at hstored
    cases hstored

end Disk

end ShaderForge
