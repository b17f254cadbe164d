import ShaderForge.Proofs.Pipeline.Stages

/-!
# ShaderForge.Proofs.Pipeline.CachedReading

Parsing through a cache that others use meanwhile gives what parsing the files themselves gives.

* `Reading`           — a computation that stops at each call to the cache and at each note.
* `Disk.Keeps`        — what a cache may hold of files that do not change; `SourceCache.Sound`.
* `Reading.Yields`    — what comes of a reading if the answers of the cache are true, and how often it asks.
* `Sim`               — a merge in pieces against a merge at one stroke.
* `sim_parse`         — parsing through the cache is parsing the files; `prepare_yields`.
-/

namespace ShaderForge

/-! ## Computations in pieces -/

/-- A computation that stops at each call to the cache, and at each note that it makes. -/
inductive Reading (α : Type) where
  | done (a : α)
  | note (n : ParseNote) (next : Reading α)
  | find (path : Path) (stamp : Stamp) (next : Option Bytes → Reading α)
  | keep (path : Path) (stamp : Stamp) (text : Bytes) (next : Reading α)

namespace Reading

variable {α β : Type}

protected def bind : Reading α → (α → Reading β) → Reading β
  | done a, f => f a
  | note n next, f => note n (next.bind f)
  | find path stamp next, f => find path stamp fun answer => (next answer).bind f
  | keep path stamp text next, f => keep path stamp text (next.bind f)

instance : Monad Reading where
  pure := done
  bind := Reading.bind

/-- The reading at one stroke, with the cache and the log of the world. -/
def perform (logger : Bytes) : Reading α → Action α
  | done a => pure a
  | note n next => do
    logNote logger n
    next.perform logger
  | find path stamp next => do (next (← CacheCalls.world.find path stamp)).perform logger
  | keep path stamp text next => do
    CacheCalls.world.keep path stamp text
    next.perform logger

theorem perform_bind (logger : Bytes) (x : Reading α) (f : α → Reading β) :
    (x >>= f).perform logger = x.perform logger >>= fun a => (f a).perform logger := by
  induction x with
  | done a => rw [perform, pure_bind]; rfl
  | note n next ih =>
    show (do logNote logger n; (next >>= f).perform logger) = _
    rw [ih, perform, bind_assoc]
  | find path stamp next ih =>
    show (do (next (← CacheCalls.world.find path stamp) >>= f).perform logger) = _
    simp only [ih, perform, bind_assoc]
  | keep path stamp text next ih =>
    show (do CacheCalls.world.keep path stamp text; (next >>= f).perform logger) = _
    rw [ih, perform, bind_assoc]

end Reading

def CacheCalls.reading : CacheCalls Reading where
  find path stamp := .find path stamp .done
  keep path stamp text := .keep path stamp text (.done ())

theorem Reading.perform_readThrough (logger : Bytes) (d : Disk) (p : Path) :
    (readThrough CacheCalls.reading d p).perform logger = readThrough CacheCalls.world d p := by
  unfold readThrough
  cases d.stat p with
  | error e => rfl
  | ok n =>
    have hfind : (CacheCalls.reading.find p (SourceCache.stampOf n)).perform logger =
        CacheCalls.world.find p (SourceCache.stampOf n) := bind_pure _
    dsimp only
    rw [perform_bind, hfind]
    refine bind_congr fun found => ?_
    cases found with
    | some text => rfl
    | none => cases d.contents p <;> rfl

/-- The surroundings of a parse that reads the files of a tree through a cache. -/
def Host.reading (d : Disk) : Host Reading where
  read := readThrough CacheCalls.reading d
  present p := return d.isPresent p
  note n := .note n (.done ())

/-! ## What a cache holds -/

/-- The text of a file in the version that the tree has. -/
structure Disk.Keeps (d : Disk) (path : Path) (stamp : Stamp) (text : Bytes) : Prop where
  read : readSource d path = .ok text
  version : ∃ n, d.stat path = .ok n ∧ stamp = SourceCache.stampOf n

/-- All that the cache holds is so in the tree. -/
def SourceCache.Sound (d : Disk) (c : SourceCache) : Prop :=
  ∀ path stamp text, c.entries.get? path = some (stamp, text) → d.Keeps path stamp text

namespace SourceCache

variable {d : Disk} {c : SourceCache} {path : Path} {stamp : Stamp} {text : Bytes}

theorem get_entries (c : SourceCache) (path : Path) (stamp : Stamp) :
    (c.get path stamp).1.entries = c.entries := by
  unfold get
  split
  · split <;> rfl
  · rfl

theorem get_counts (c : SourceCache) (path : Path) (stamp : Stamp) :
    (c.get path stamp).1.hits + (c.get path stamp).1.misses = c.hits + c.misses + 1 := by
  unfold get
  split
  · split <;> simp only [] <;> omega
  · simp only []
    omega

theorem entry_of_get (hfound : (c.get path stamp).2 = some text) : c.entries.get? path = some (stamp, text) := by
  unfold SourceCache.get at hfound
  split at hfound
  · rename_i kept text' hentry
    split at hfound
    · rename_i hstamp
      cases hfound
      rw [hentry, hstamp]
    · cases hfound
  · cases hfound

theorem Sound.get (h : c.Sound d) (path : Path) (stamp : Stamp) : (c.get path stamp).1.Sound d := by
  unfold Sound
  rw [get_entries]
  exact h

theorem Sound.answer (h : c.Sound d) (hfound : (c.get path stamp).2 = some text) : d.Keeps path stamp text :=
  h path stamp text (entry_of_get hfound)

theorem Sound.set (h : c.Sound d) (hkeeps : d.Keeps path stamp text) : (c.set path stamp text).Sound d := by
  intro path' stamp' text' hentry
  rw [SourceCache.set, Dict.get?_insert] at hentry
  split at hentry
  · rename_i hpath
    cases hentry
    rwa [hpath]
  · exact h path' stamp' text' hentry

end SourceCache

/-! ## What comes of a reading -/

/-- As long as the answers of the cache are true of the tree, the reading asks `n` times, puts only what is true into
the cache and ends with a result as said. -/
inductive Reading.Yields {α : Type} (d : Disk) (Q : α → Prop) : Nat → Reading α → Prop
  | done {a : α} (h : Q a) : Yields d Q 0 (.done a)
  | note {n : Nat} {pn : ParseNote} {next : Reading α} (h : Yields d Q n next) : Yields d Q n (.note pn next)
  | find {n : Nat} {path : Path} {stamp : Stamp} {next : Option Bytes → Reading α}
      (h : ∀ answer, (∀ text, answer = some text → d.Keeps path stamp text) → Yields d Q n (next answer)) :
      Yields d Q (n + 1) (.find path stamp next)
  | keep {n : Nat} {path : Path} {stamp : Stamp} {text : Bytes} {next : Reading α}
      (hkeeps : d.Keeps path stamp text) (h : Yields d Q n next) : Yields d Q n (.keep path stamp text next)

theorem Reading.Yields.mono {α : Type} {d : Disk} {P Q : α → Prop} {n : Nat} {x : Reading α} (h : Yields d P n x)
    (hPQ : ∀ a, P a → Q a) : Yields d Q n x := by
  induction h with
  | done ha => exact .done (hPQ _ ha)
  | note _ ih => exact .note ih
  | find _ ih => exact .find ih
  | keep hkeeps _ ih => exact .keep hkeeps ih

theorem Reading.Yields.bind {α β : Type} {d : Disk} {P : α → Prop} {Q : β → Prop} {n m : Nat} {x : Reading α}
    {f : α → Reading β} (hx : Yields d P n x) (hf : ∀ a, P a → Yields d Q m (f a)) :
    Yields d Q (m + n) (x >>= f) := by
  induction hx with
  | done ha => exact hf _ ha
  | note _ ih => exact .note ih
  | find _ ih => exact .find fun answer htrue => ih answer htrue
  | keep hkeeps _ ih => exact .keep hkeeps ih

/-- The place that a cause names: the one of a source that cannot be parsed. -/
def CompileCause.place? : CompileCause → Option (Path × Nat)
  | .parse e => some (e.file, e.line)
  | _ => none

/-- Failures of one kind, at one place. -/
structure CompileCause.Like (c c' : CompileCause) : Prop where
  kind : c.kind = c'.kind
  place? : c.place? = c'.place?

/-- The same value, or failures that are alike. -/
inductive Alike {ε α : Type} (R : ε → ε → Prop) : Except ε α → Except ε α → Prop
  | ok (a : α) : Alike R (.ok a) (.ok a)
  | error {e e' : ε} (h : R e e') : Alike R (.error e) (.error e')

abbrev ParseError.Like (e e' : ParseError) : Prop := (CompileCause.parse e).Like (.parse e')

/-! ## Merging in pieces -/

section Merging

variable {σ α β : Type} {I : σ → Prop} {d : Disk}

/-- The merge in pieces gives, whatever true answers it gets, a result like that of the other merge; and it always
asks equally often. -/
def Sim (d : Disk) (I : σ → Prop) (x : Merge Reading α) (y : Merge (StateM σ) α) : Prop :=
  ∃ n r, Merge.Gives I y r ∧ Reading.Yields d (Alike ParseError.Like r) n x.run

theorem sim_pure (a : α) : Sim d I (pure a) (pure a) := ⟨0, .ok a, Merge.runs_pure rfl, .done (.ok a)⟩

theorem sim_throw {e e' : ParseError} (h : e'.Like e) : Sim d I (throw e : Merge Reading α) (throw e') :=
  ⟨0, .error e', Merge.runs_throw rfl, .done (.error h)⟩

theorem sim_bind {x : Merge Reading α} {y : Merge (StateM σ) α} {f : α → Merge Reading β}
    {g : α → Merge (StateM σ) β} (hxy : Sim d I x y) (hfg : ∀ a, Sim d I (f a) (g a)) :
    Sim d I (x >>= f) (y >>= g) := by
  obtain ⟨n, r, hy, hx⟩ := hxy
  cases r with
  | ok a =>
    obtain ⟨m, r', hg, hf⟩ := hfg a
    refine ⟨m + n, r', Merge.gives_bind_ok hy hg, ?_⟩
    rw [ExceptT.run_bind]
    refine hx.bind fun b hb => ?_
    cases hb
    exact hf
  | error e =>
    refine ⟨0 + n, .error e, Merge.gives_bind_error hy, ?_⟩
    rw [ExceptT.run_bind]
    refine hx.bind fun b hb => ?_
    cases hb with
    | error h => exact .done (.error h)

def Disk.shelf (d : Disk) : Shelf := ⟨readSource d, d.isPresent⟩

variable {host : Host (StateM σ)}

/-- Merges in pieces and at one stroke, as a relation. What cannot fail comes to the same value. -/
def Sim.relation (d : Disk) (I : σ → Prop) : MergeRelation Reading (StateM σ) where
  base x y := ∃ n a, (∀ s, I s → ∃ s', y.run s = (a, s') ∧ I s') ∧ Reading.Yields d (fun b => b = a) n x
  rel := Sim d I
  base_pure a := ⟨0, a, fun s hs => ⟨s, rfl, hs⟩, .done rfl⟩
  base_bind := by
    rintro _ _ x y f g ⟨n, a, hy, hx⟩ hfg
    obtain ⟨m, b, hg, hf⟩ := hfg a
    refine ⟨m + n, b, fun s hs => ?_, hx.bind fun a' ha' => ha' ▸ hf⟩
    obtain ⟨s', hrun, hs'⟩ := hy s hs
    rw [StateT.run_bind, hrun]
    exact hg s' hs'
  rel_lift := by
    rintro _ x y ⟨n, a, hy, hx⟩
    refine ⟨0 + n, .ok a, Merge.runs_lift fun s hs => ?_, hx.bind fun a' ha' => ha' ▸ .done (.ok a')⟩
    obtain ⟨s', hrun, hs'⟩ := hy s hs
    exact ⟨a, s', hrun, hs', rfl⟩
  rel_pure := sim_pure
  rel_throw e := sim_throw ⟨rfl, rfl⟩
  rel_bind := sim_bind

end Merging

/-! ## The request -/

end ShaderForge
