import ShaderForge.Proofs.Pipeline.CachedReading

/-!
# ShaderForge.Proofs.Pipeline.LoggedParsing

A log that is kept apart from what a parse asks for leaves the parse as it is.

* `Shelf.asked`       — the paths that a parse asks for.
* `World.logged`      — the world after some log entries.
* `World.LogSpares`   — whatever is logged, a path shows what it shows.
* `Asks.relation`     — parses that ask and parses that look, with log entries in between.
* `run_parseFile_logged` — what was logged before makes no difference.
-/

namespace ShaderForge

/-! ## Paths asked for -/

/-- A computation that remembers the paths it asks for. -/
abbrev Asks := StateM (List Path)

/-- A host that answers from a shelf and remembers what it was asked for. -/
def Shelf.asking (shelf : Shelf) : Host Asks where
  read p := do
    modify (p :: ·)
    return shelf.read p
  present p := do
    modify (p :: ·)
    return shelf.present p
  note _ := pure ()

def Shelf.parsed (shelf : Shelf) (opts : ParseOptions) (path : Path) : Except ParseError Recovered :=
  ((parse shelf.asking opts path).run.run []).1

/-- The paths that a parse asks for. -/
def Shelf.asked (shelf : Shelf) (opts : ParseOptions) (path : Path) : List Path :=
  ((parse shelf.asking opts path).run.run []).2

/-! ## Worlds with log entries -/

namespace World

def logged (w : World) (entries : List LogEntry) : World := entries.foldl (fun w e => w.log e) w

theorem log_logged (w : World) (entries : List LogEntry) (e : LogEntry) :
    (w.logged entries).log e = w.logged (entries ++ [e]) := by
  rw [logged, logged, List.foldl_append]
  rfl

theorem idle_logged {away : Place → Prop} {w : World} (h : w.LogAvoids away) (entries : List LogEntry) :
    Idle away w (w.logged entries) := by
  induction entries generalizing w with
  | nil => exact .refl away w
  | cons e entries ih =>
    have hidle := idle_log h e
    exact hidle.trans (ih (h.of_idle hidle))

theorem cwd_logged (w : World) (entries : List LogEntry) : (w.logged entries).disk.cwd = w.disk.cwd :=
  (idle_logged w.logAvoids_nowhere entries).disk.cwd

theorem stdout_log (w : World) (e : LogEntry) : (w.log e).stdout = w.stdout := by
  unfold log
  split
  · rfl
  dsimp only
  repeat' split
  all_goals rfl

theorem stdout_logged (w : World) (entries : List LogEntry) : (w.logged entries).stdout = w.stdout := by
  induction entries generalizing w with
  | nil => rfl
  | cons e entries ih => exact (ih (w.log e)).trans (w.stdout_log e)

/-- Whatever is logged, the path shows what it shows. -/
def LogSpares (w : World) (p : Path) : Prop :=
  ∀ entries, readSource (w.logged entries).disk p = readSource w.disk p ∧
    (w.logged entries).disk.isPresent p = w.disk.isPresent p

end World

/-! ## Asking and looking -/

/-- As long as the log spares what is asked for, the action gives the same, and does no more than log. -/
def Asks.Answered (w : World) {α : Type} (x : Asks α) (y : Action α) : Prop :=
  ∀ before, before ⊆ (x.run before).2 ∧
    ((∀ p ∈ (x.run before).2, w.LogSpares p) → ∀ entries, ∃ entries',
      y.run (w.logged entries) = ((x.run before).1, w.logged entries'))

namespace Asks

variable {α β : Type} {w : World}

theorem Answered.pure (a : α) : Answered w (pure a) (pure a) :=
  fun before => ⟨List.Subset.refl before, fun _ entries => ⟨entries, rfl⟩⟩

theorem Answered.bind {x : Asks α} {y : Action α} {f : α → Asks β} {g : α → Action β} (hxy : Answered w x y)
    (hfg : ∀ a, Answered w (f a) (g a)) : Answered w (x >>= f) (y >>= g) := by
  intro before
  obtain ⟨hsub, hx⟩ := hxy before
  obtain ⟨hsub', hf⟩ := hfg (x.run before).1 (x.run before).2
  refine ⟨List.Subset.trans hsub hsub', fun hspares entries => ?_⟩
  obtain ⟨entries', hrun⟩ := hx (fun p hp => hspares p (hsub' hp)) entries
  obtain ⟨entries'', hrun'⟩ := hf hspares entries'
  refine ⟨entries'', ?_⟩
  rw [StateT.run_bind, hrun]
  exact hrun'

def relation (w : World) : MergeRelation Asks Action :=
  .ofBase (Answered w) Answered.pure (fun f _ _ h => h.bind fun a => .pure (f a)) Answered.bind

end Asks

theorem ParserSettings.asking_hosts (s : ParserSettings) (hs : s.reader = .disk) (w : World) :
    (Asks.relation w).Hosts w.disk.shelf.asking s.host where
  read p fault _ _ _ _ := by
    refine MergeRelation.rel_read (fun before => ⟨List.subset_cons_self p before, fun hspares entries => ?_⟩) fault
    refine ⟨entries, ?_⟩
    rw [host, hs]
    exact congrArg (Prod.mk · _) (hspares p List.mem_cons_self entries).1
  present p before := ⟨List.subset_cons_self p before, fun hspares entries =>
    ⟨entries, congrArg (Prod.mk · _) (hspares p List.mem_cons_self entries).2⟩⟩
  note n before := by
    obtain ⟨entry, hrun⟩ := run_logNote s.logger n
    refine ⟨List.Subset.refl before, fun _ entries => ⟨entries ++ [entry], ?_⟩⟩
    rw [← World.log_logged]
    exact hrun _

/-- Whatever was logged before, a source is parsed as the tree shows it, if the log spares what is asked for. -/
theorem run_parseFile_logged (s : ParserSettings) (hs : s.reader = .disk) {w : World} {path : Path}
    (hspares : ∀ p ∈ w.disk.shelf.asked (s.options w) path, w.LogSpares p) (entries : List LogEntry) :
    ∃ entries', (parseFile s path).run (w.logged entries) =
      (w.disk.shelf.parsed (s.options w) path, w.logged entries') := by
  have hoptions : s.options (w.logged entries) = s.options w := by
    rw [ParserSettings.options, ParserSettings.options, Disk.cwdPath, Disk.cwdPath, w.cwd_logged]
  rw [run_parseFile, hoptions]
  exact (MergeRelation.rel_parse (s.asking_hosts hs w) (s.options w) path []).2 hspares entries

end ShaderForge
