import Mathlib
import ShaderForge.Proofs.Files.Directories
import ShaderForge.Proofs.Pipeline.CachedReading

/-!
# ShaderForge.Proofs.Pipeline.CacheHistory

A cache of sources while the sources change. Files are written, taken away and read in any order, and the cache is
emptied now and then. As long as two versions of a file that differ can be told by size or time, no read gives an old
text.

* `SourceEvent`, `History` — what happens, and what there is to remember of it.
* `History.Traced`   — each text in the cache is that of its file in a tree that there was.
* `Traced.next`, `traced_of` — one event keeps that, and so does a history.
* `cached_read_current` — so a read gives what the file holds now.
-/

namespace ShaderForge

/-! ## Events -/

/-- What may happen to sources and to the cache that they are read through. -/
inductive SourceEvent where
  | write (path : Path) (content : Bytes) (modified : Int)
  | remove (path : Path)
  | read (path : Path)
  | close

/-- A file written with a time of change, in directories that are made for it. What cannot be written is not. -/
def Disk.writeAt (d : Disk) (path : Path) (content : Bytes) (modified : Int) : Disk :=
  match (d.mkdirAll (Path.dir path)).1.store path content with
  | .error _ => d
  | .ok d' =>
    match d'.setModified path modified with
    | .error _ => d'
    | .ok d' => d'

def SourceEvent.after (e : SourceEvent) (w : World) : World :=
  match e with
  | .write path content modified => { w with disk := w.disk.writeAt path content modified }
  | .remove path => ((Action.perform fun d => d.remove path).run w).2
  | .read path => ((SourceReader.cached.read path).run w).2
  | .close => { w with cache := {} }

/-- The world, all trees that there were up to now, and how many reads since the cache was emptied found a file. -/
structure History where
  world : World
  trees : List Disk
  lookups : Nat

namespace History

def start (w : World) : History := ⟨{ w with cache := {} }, [w.disk], 0⟩

def next (h : History) (e : SourceEvent) : History where
  world := e.after h.world
  trees := (e.after h.world).disk :: h.trees
  lookups := match e with
    | .read path => if h.world.disk.isPresent path then h.lookups + 1 else h.lookups
    | .close => 0
    | _ => h.lookups

def of (w : World) (events : List SourceEvent) : History := events.foldl next (start w)

end History

/-! ## Versions -/

/-- The content of a file; a directory has none. -/
def Node.content? : Node → Option Bytes
  | .file content _ => some content
  | _ => none

/-- Two versions of a path with the same stamp have the same content. -/
def TellsVersions (trees : List Disk) : Prop :=
  ∀ d ∈ trees, ∀ d' ∈ trees, ∀ (path : Path) (n n' : Node), d.stat path = .ok n → d'.stat path = .ok n' →
    SourceCache.stampOf n = SourceCache.stampOf n' → n.content? = n'.content?

namespace Disk

variable {d d' : Disk} {path : Path} {n : Node} {stamp : Stamp} {text : Bytes}

theorem contents_of_stat (h : d.stat path = .ok n) :
    d.contents path =
      match n.content? with
      | some content => .ok content
      | none => .error ⟨"read", path, .isDirectory⟩ := by
  unfold stat at h
  unfold contents
  split at h
  · rename_i hinspect
    cases h
    rw [hinspect]
    cases n <;> rfl
  · cases h

theorem stat_of_contents {content : Bytes} (h : d.contents path = .ok content) : ∃ n, d.stat path = .ok n := by
  unfold contents at h
  unfold stat
  cases hinspect : d.inspect true path with
  | error c =>
    rw [hinspect] at h
    cases h
  | ok found => exact ⟨found.2, rfl⟩

/-- A text that was kept for the version that the file has now is the text of the file. -/
theorem Keeps.contents_eq (hkeeps : d.Keeps path (SourceCache.stampOf n) text) (hn : d'.stat path = .ok n)
    (hsame : ∀ m, d.stat path = .ok m → SourceCache.stampOf m = SourceCache.stampOf n → m.content? = n.content?) :
    ∃ content, d'.contents path = .ok content ∧ text = decodeSource content := by
  obtain ⟨m, hm, hstamp⟩ := hkeeps.version
  have hread := hkeeps.read
  rw [readSource, contents_of_stat hm, hsame m hm hstamp.symm] at hread
  rw [contents_of_stat hn]
  cases hcontent : n.content? with
  | none =>
    rw [hcontent] at hread
    cases hread
  | some content =>
    rw [hcontent] at hread
    cases hread
    exact ⟨content, rfl, rfl⟩

end Disk

theorem Disk.mem_of_stat {d : Disk} {path : Path} {n : Node} (h : d.stat path = .ok n) :
    n ∈ .directory :: d.nodes.map (·.2) := by
  obtain ⟨place, hfind⟩ := find_of_stat h
  obtain ⟨-, hleads⟩ := find_eq_ok_iff.1 hfind
  have hnode : d.node? place = some n := hleads.node?_place
  unfold node? at hnode
  split at hnode
  · cases hnode
    exact List.mem_cons_self
  · obtain ⟨front, back, hnodes, -⟩ := List.lookup_eq_some_iff.1 hnode
    rw [hnodes]
    simp

theorem tellsVersions_of_nodes {trees : List Disk} {nodes : List (List (Place × Node))}
    (hnodes : trees.map (·.nodes) = nodes)
    (h : ∀ n ∈ .directory :: nodes.flatten.map (·.2), ∀ n' ∈ .directory :: nodes.flatten.map (·.2),
      SourceCache.stampOf n = SourceCache.stampOf n' → n.content? = n'.content?) : TellsVersions trees := by
  subst hnodes
  have hmem : ∀ d ∈ trees, ∀ (path : Path) (n : Node), d.stat path = .ok n →
      n ∈ .directory :: (trees.map (·.nodes)).flatten.map (·.2) := by
    intro d hd path n hn
    rcases List.mem_cons.1 (Disk.mem_of_stat hn) with rfl | hin
    · exact List.mem_cons_self
    · obtain ⟨e, he, rfl⟩ := List.mem_map.1 hin
      exact List.mem_cons_of_mem _
        (List.mem_map_of_mem (List.mem_flatten.2 ⟨_, List.mem_map_of_mem hd, he⟩))
  intro d hd d' hd' path n n' hn hn'
  exact h n (hmem d hd path n hn) n' (hmem d' hd' path n' hn')

/-! ## What the cache holds -/

namespace History

/-- Each text in the cache is that of its file in a tree that there was, and each look into it was counted. -/
structure Traced (h : History) : Prop where
  present : h.world.disk ∈ h.trees
  entries : ∀ path stamp text, h.world.cache.entries.get? path = some (stamp, text) →
    ∃ d ∈ h.trees, d.Keeps path stamp text
  counts : h.world.cache.hits + h.world.cache.misses = h.lookups

theorem traced_start (w : World) : (start w).Traced where
  present := List.mem_singleton_self _
  entries := by
    intro path stamp text hentry
    cases hentry
  counts := rfl

variable {h : History}

theorem Traced.of_disk (ht : h.Traced) (d : Disk) :
    Traced ⟨{ h.world with disk := d }, d :: h.trees, h.lookups⟩ where
  present := List.mem_cons_self
  entries path stamp text hentry := by
    obtain ⟨d', hd', hkeeps⟩ := ht.entries path stamp text hentry
    exact ⟨d', List.mem_cons_of_mem _ hd', hkeeps⟩
  counts := ht.counts

theorem Traced.remove (ht : h.Traced) (path : Path) : (h.next (.remove path)).Traced := by
  have hrun : ∃ d, SourceEvent.after (.remove path) h.world = { h.world with disk := d } := by
    simp only [SourceEvent.after, Action.run_perform]
    cases h.world.disk.remove path with
    | error e => exact ⟨h.world.disk, rfl⟩
    | ok d => exact ⟨d, rfl⟩
  obtain ⟨d, hd⟩ := hrun
  unfold next
  rw [hd]
  exact ht.of_disk d

theorem Traced.of_get (ht : h.Traced) (path : Path) (stamp : Stamp) :
    Traced ⟨{ h.world with cache := (h.world.cache.get path stamp).1 }, h.world.disk :: h.trees, h.lookups + 1⟩ where
  present := List.mem_cons_self
  entries path' stamp' text hentry := by
    rw [SourceCache.get_entries] at hentry
    obtain ⟨d, hd, hkeeps⟩ := ht.entries path' stamp' text hentry
    exact ⟨d, List.mem_cons_of_mem _ hd, hkeeps⟩
  counts := by
    rw [SourceCache.get_counts, ht.counts]

theorem Traced.of_set (ht : h.Traced) {d : Disk} (hd : d ∈ h.trees) {path : Path} {stamp : Stamp} {text : Bytes}
    (hkeeps : d.Keeps path stamp text) :
    Traced ⟨{ h.world with cache := h.world.cache.set path stamp text }, h.trees, h.lookups⟩ where
  present := ht.present
  entries path' stamp' text' hentry := by
    rw [SourceCache.set, Dict.get?_insert] at hentry
    split at hentry
    · rename_i hpath
      cases hentry
      exact ⟨d, hd, hpath ▸ hkeeps⟩
    · exact ht.entries path' stamp' text' hentry
  counts := ht.counts

theorem Traced.read (ht : h.Traced) (path : Path) : (h.next (.read path)).Traced := by
  have hnext : h.next (.read path) =
      let w := ((readThrough CacheCalls.world h.world.disk path).run h.world).2
      ⟨w, w.disk :: h.trees, if h.world.disk.isPresent path then h.lookups + 1 else h.lookups⟩ := rfl
  rw [hnext, run_readThrough_eq, Disk.isPresent]
  cases hstat : h.world.disk.stat path with
  | error e => exact ht.of_disk h.world.disk
  | ok n =>
    have hlook := ht.of_get path (SourceCache.stampOf n)
    dsimp only
    rw [if_pos rfl]
    cases hget : h.world.cache.get path (SourceCache.stampOf n) with
    | mk cache found =>
      rw [hget] at hlook
      cases found with
      | some text => exact hlook
      | none =>
        cases hcontents : h.world.disk.contents path with
        | error e => exact hlook
        | ok content =>
          refine hlook.of_set List.mem_cons_self ⟨?_, n, hstat, rfl⟩
          rw [readSource, hcontents]
          rfl

theorem traced_close (h : History) : (h.next .close).Traced where
  present := List.mem_cons_self
  entries := by
    intro path stamp text hentry
    cases hentry
  counts := rfl

theorem Traced.next (ht : h.Traced) (e : SourceEvent) : (h.next e).Traced := by
  cases e with
  | write path content modified => exact ht.of_disk _
  | remove path => exact ht.remove path
  | read path => exact ht.read path
  | close => exact traced_close h

theorem traced_of (w : World) (events : List SourceEvent) : (of w events).Traced := by
  suffices hfold : ∀ h : History, h.Traced → (events.foldl History.next h).Traced from hfold _ (traced_start w)
  induction events with
  | nil => exact fun h ht => ht
  | cons e events ih => exact fun h ht => ih _ (ht.next e)

/-! ## What a read gives -/

/-- A text found in the cache is of an earlier tree, where the file had the stamp it has now. -/
theorem Traced.current_of_found (ht : h.Traced) (hversions : TellsVersions h.trees) {path : Path} {n : Node}
    {text : Bytes} (hn : h.world.disk.stat path = .ok n)
    (hfound : (h.world.cache.get path (SourceCache.stampOf n)).2 = some text) :
    readSource h.world.disk path = .ok text := by
  obtain ⟨d, hd, hkeeps⟩ := ht.entries path _ text (SourceCache.entry_of_get hfound)
  obtain ⟨content, hcontents, rfl⟩ := hkeeps.contents_eq hn fun m hm hstamp =>
    hversions d hd _ ht.present path m n hm hn hstamp
  rw [readSource, hcontents]
  rfl

/-- Through the cache or not, a read gives the same, but for the name of the call that did not find the file. -/
theorem Traced.read_result (ht : h.Traced) (hversions : TellsVersions h.trees) (path : Path) :
    ((SourceReader.cached.read path).run h.world).1 =
      match h.world.disk.stat path with
      | .error e => .error e
      | .ok _ => readSource h.world.disk path := by
  show ((readThrough CacheCalls.world h.world.disk path).run h.world).1 = _
  rw [run_readThrough_eq]
  cases hn : h.world.disk.stat path with
  | error e => rfl
  | ok n =>
    have hcurrent : ∀ text, (h.world.cache.get path (SourceCache.stampOf n)).2 = some text →
        readSource h.world.disk path = .ok text := fun _ => ht.current_of_found hversions hn
    dsimp only
    generalize h.world.cache.get path (SourceCache.stampOf n) = got at hcurrent
    obtain ⟨cache, _ | text⟩ := got
    · dsimp only
      rw [readSource]
      cases h.world.disk.contents path <;> rfl
    · exact (hcurrent text rfl).symm

end History

theorem entries_of_failed_read {w : World} {path : Path} {e : FileError}
    (h : ((SourceReader.cached.read path).run w).1 = .error e) :
    ((SourceReader.cached.read path).run w).2.cache.entries = w.cache.entries := by
  change ((readThrough CacheCalls.world w.disk path).run w).1 = .error e at h
  show ((readThrough CacheCalls.world w.disk path).run w).2.cache.entries = _
  rw [run_readThrough_eq] at h ⊢
  cases hn : w.disk.stat path with
  | error e => rfl
  | ok n =>
    have hentries := SourceCache.get_entries w.cache path (SourceCache.stampOf n)
    rw [hn] at h
    dsimp only at h ⊢
    generalize w.cache.get path (SourceCache.stampOf n) = got at h hentries
    obtain ⟨cache, _ | text⟩ := got
    · dsimp only at h ⊢
      cases hcontents : w.disk.contents path with
      | error e => exact hentries
      | ok content =>
        rw [hcontents] at h
        cases h
    · cases h

/-- At any time of any history a read through the cache gives the text of what the file holds at that time; it fails
exactly if the file cannot be found or not be read, and then leaves all that is kept as it is. Hits and misses together
are the reads that found their file since the cache was last emptied. -/
theorem cached_read_current (w : World) (events : List SourceEvent) (path : Path)
    (hversions : TellsVersions (History.of w events).trees) :
    let now := (History.of w events).world
    let read := (SourceReader.cached.read path).run now
    (∀ text, read.1 = .ok text ↔ ∃ content, now.disk.contents path = .ok content ∧ text = decodeSource content) ∧
    (∀ e, read.1 = .error e ↔
      now.disk.stat path = .error e ∨ (∃ n, now.disk.stat path = .ok n) ∧ now.disk.contents path = .error e) ∧
    (∀ e, read.1 = .error e → read.2.cache.entries = now.cache.entries) ∧
    now.cache.hits + now.cache.misses = (History.of w events).lookups := by
  have htraced := History.traced_of w events
  intro now read
  have hresult : read.1 = _ := htraced.read_result hversions path
  refine ⟨fun text => ?_, fun e => ?_, fun e he => entries_of_failed_read he, htraced.counts⟩
  · rw [hresult]
    constructor
    · intro hok
      split at hok
      · cases hok
      · rw [readSource] at hok
        cases hcontents : now.disk.contents path with
        | error e => rw [hcontents] at hok; cases hok
        | ok content => rw [hcontents] at hok; cases hok; exact ⟨content, rfl, rfl⟩
    · rintro ⟨content, hcontents, rfl⟩
      obtain ⟨n, hn⟩ := Disk.stat_of_contents hcontents
      rw [hn, readSource, hcontents]
      rfl
  · rw [hresult]
    cases hn : now.disk.stat path with
    | error e' => simp
    | ok n =>
      rw [readSource]
      cases now.disk.contents path <;> simp [Except.map]

/-- A file is read, rewritten, taken away and put back as it was. -/
def restoredFile : List SourceEvent :=
  [.write "/d/a" "x\r\n" 1, .read "/d/a", .write "/d/a" "longer" 1, .remove "/d/a", .write "/d/a" "x\r\n" 1]

/-- The text that was kept at first is found. -/
theorem cached_read_current_restored :
    let now := (History.of {} restoredFile).world
    TellsVersions (History.of {} restoredFile).trees ∧ ((SourceReader.cached.read "/d/a").run now).1 = .ok "x\n" ∧
      now.cache.hits + now.cache.misses = 1 := by
  have hnodes : (History.of {} restoredFile).trees.map (·.nodes) =
      [[([utf8 "d"], .directory), ([utf8 "d", utf8 "a"], .file "x\r\n" 1)], [([utf8 "d"], .directory)],
        [([utf8 "d"], .directory), ([utf8 "d", utf8 "a"], .file "longer" 1)],
        [([utf8 "d"], .directory), ([utf8 "d", utf8 "a"], .file "x\r\n" 1)],
        [([utf8 "d"], .directory), ([utf8 "d", utf8 "a"], .file "x\r\n" 1)], []] := by cbv
  have hcontents : (History.of {} restoredFile).world.disk.contents "/d/a" = .ok "x\r\n" := by cbv
  have hlookups : (History.of {} restoredFile).lookups = 1 := by cbv
  have hversions := tellsVersions_of_nodes hnodes (by decide)
  obtain ⟨hok, -, -, hcounts⟩ := cached_read_current {} restoredFile "/d/a" hversions
  exact ⟨hversions, (hok _).2 ⟨_, hcontents, by decide⟩, hcounts.trans hlookups⟩

end ShaderForge
