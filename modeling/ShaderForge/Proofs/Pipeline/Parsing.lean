import ShaderForge.Pipeline.Reading
import ShaderForge.Proofs.Files.Quiet
import ShaderForge.Proofs.Source.Declarations
import ShaderForge.Proofs.Source.IncludeResolution
import ShaderForge.Proofs.Source.Surroundings

/-!
# ShaderForge.Proofs.Pipeline.Parsing

What a parse does to the world: it reads, it logs and it uses the cache.

* `World.Idle`       — two worlds with no more than that between them.
* `Merge.Keeps`      — a merge that keeps an invariant, whatever its result.
* `keeps_resolve`    — merging asks nothing of its host but what the host does.
* `parseFile_idle`   — a parse in the world; what it recovers is well-formed.
-/

namespace ShaderForge

/-! ## Worlds that differ by log entries -/

namespace World

/-- The log file of the world, if there is one, avoids the places. -/
def LogAvoids (w : World) (away : Place → Prop) : Prop :=
  ∀ s file, w.logging = some s → s.file = some file →
    ∀ q, Disk.Within q file.path → w.disk.Avoids away q

/-- Between the two worlds only log entries were written, away from the places, and sources were read. -/
structure Idle (away : Place → Prop) (w w' : World) : Prop where
  disk : Disk.Quiet away w.disk w'.disk
  environment : w'.environment = w.environment
  logging : w'.logging = w.logging
  cancelled : w'.cancelled = w.cancelled
  calls : w'.calls = w.calls

variable {away : Place → Prop} {w w' w'' : World}

theorem Idle.refl (away : Place → Prop) (w : World) : Idle away w w := ⟨.refl away w.disk, rfl, rfl, rfl, rfl⟩

theorem Idle.trans (h : Idle away w w') (h' : Idle away w' w'') : Idle away w w'' :=
  ⟨h.disk.trans h'.disk, h'.environment.trans h.environment, h'.logging.trans h.logging,
    h'.cancelled.trans h.cancelled, h'.calls.trans h.calls⟩

theorem LogAvoids.of_quiet (h : w.LogAvoids away) (hlogging : w'.logging = w.logging)
    (hq : Disk.Quiet away w.disk w'.disk) : w'.LogAvoids away := by
  intro s file hs hfile q hwithin
  rw [hlogging] at hs
  exact (h s file hs hfile q hwithin).of_quiet hq

theorem LogAvoids.of_idle (h : w.LogAvoids away) (hi : Idle away w w') : w'.LogAvoids away :=
  h.of_quiet hi.logging hi.disk

theorem logAvoids_nowhere (w : World) : w.LogAvoids fun _ => False := fun _ _ _ _ _ _ _ _ _ _ _ => not_false

theorem idle_log (h : w.LogAvoids away) (e : LogEntry) : Idle away w (w.log e) := by
  unfold log
  split
  · exact .refl away w
  rename_i s hs
  split
  · exact .refl away w
  have hconsole : Idle away w (if s.console then { w with stderr := w.stderr ++ e.consoleLine } else w) := by
    split
    · exact ⟨.refl away w.disk, rfl, rfl, rfl, rfl⟩
    · exact .refl away w
  generalize (if s.console then { w with stderr := w.stderr ++ e.consoleLine } else w) = w' at hconsole
  split
  · exact hconsole
  · rename_i file hfile
    have hquiet := Disk.quiet_appendLog ((h.of_idle hconsole) s file (hconsole.logging.trans hs) hfile)
      (e.fileLine w'.environment.logTime w'.environment.logCaller)
    exact hconsole.trans ⟨hquiet, rfl, rfl, rfl, rfl⟩

end World

/-! ## Merges that keep an invariant -/

variable {σ α β : Type} {I : σ → Prop}

/-- From every state of the invariant the merge comes to a state of the invariant. -/
def Merge.Keeps (I : σ → Prop) (x : Merge (StateM σ) α) : Prop := Merge.Runs I x fun _ => True

namespace Merge

theorem keeps_pure (a : α) : Keeps I (pure a : Merge (StateM σ) α) := runs_pure trivial

theorem keeps_throw (e : ParseError) : Keeps I (throw e : Merge (StateM σ) α) := runs_throw trivial

theorem keeps_lift {x : StateM σ α} (h : ∀ s, I s → I (x.run s).2) :
    Keeps I (liftM x : Merge (StateM σ) α) :=
  runs_lift fun s hs => ⟨_, _, rfl, h s hs, trivial⟩

theorem keeps_bind {x : Merge (StateM σ) α} {f : α → Merge (StateM σ) β} (hx : Keeps I x)
    (hf : ∀ a, Keeps I (f a)) : Keeps I (x >>= f) :=
  runs_bind hx (fun a _ => hf a) fun _ _ => trivial

end Merge

/-- Whatever is asked of the host, it keeps the invariant. -/
structure Host.Keeps (host : Host (StateM σ)) (I : σ → Prop) : Prop where
  read : ∀ p s, I s → I ((host.read p).run s).2
  present : ∀ p s, I s → I ((host.present p).run s).2
  note : ∀ n s, I s → I ((host.note n).run s).2

section Merging

open Merge

variable {host : Host (StateM σ)}

/-- Merges that keep the invariant, as a relation that does not look at its second side. -/
def Merge.keeping (I : σ → Prop) : MergeRelation (StateM σ) (StateM σ) where
  base x _ := ∀ s, I s → I (x.run s).2
  rel x _ := Keeps I x
  base_pure _ _ hs := hs
  base_bind hx hf s hs := hf _ _ (hx s hs)
  rel_lift hx := keeps_lift hx
  rel_pure := keeps_pure
  rel_throw := keeps_throw
  rel_bind := keeps_bind

theorem Host.Keeps.hosts (hh : host.Keeps I) : (Merge.keeping I).Hosts host host where
  read p fault _ _ _ _ := MergeRelation.rel_read (hh.read p) fault
  present := hh.present
  note := hh.note

theorem keeps_resolve (hh : host.Keeps I) (opts : IncludeOptions) (path : Path) : Keeps I (resolve host opts path) :=
  MergeRelation.rel_resolve hh.hosts opts path

theorem runs_parse (hh : host.Keeps I) (opts : ParseOptions) (path : Path) :
    Merge.Runs I (parse host opts path) fun r => ∀ rec, r = .ok rec → rec.WellFormed := by
  unfold parse
  refine runs_bind (keeps_resolve hh _ path) (fun merged _ => ?_) fun e _ rec hrec => by cases hrec
  unfold recover
  cases hread : Scene.read opts.strict merged with
  | mk notes result =>
    have hnotes : Keeps I (notes.forM fun n => liftM (host.note n)) :=
      MergeRelation.rel_forM (R := keeping I) (g := fun _ => pure ()) (fun n => keeps_lift (hh.note n)) notes
    refine runs_bind hnotes (fun _ _ => ?_) fun e _ rec hrec => by cases hrec
    cases result with
    | error e => exact runs_throw fun rec hrec => by cases hrec
    | ok r =>
      refine runs_pure fun rec hrec => ?_
      cases hrec
      exact Scene.read_wellFormed (congrArg Prod.snd hread)

end Merging

/-! ## In the world -/

/-- A read through the cache of the world: what is kept for the version that the file has, or else what the file
holds, which is then kept. -/
theorem run_readThrough_eq (d : Disk) (p : Path) (w : World) :
    (readThrough CacheCalls.world d p).run w =
      match d.stat p with
      | .error e => (.error e, w)
      | .ok n =>
        match w.cache.get p (SourceCache.stampOf n) with
        | (cache, some text) => (.ok text, { w with cache })
        | (cache, none) =>
          match d.contents p with
          | .error e => (.error e, { w with cache })
          | .ok content =>
            (.ok (decodeSource content),
              { w with cache := cache.set p (SourceCache.stampOf n) (decodeSource content) }) := by
  unfold readThrough
  cases d.stat p with
  | error e => rfl
  | ok n =>
    dsimp only
    rw [StateT.run_bind]
    have hfind : (CacheCalls.world.find p (SourceCache.stampOf n)).run w =
        ((w.cache.get p (SourceCache.stampOf n)).2,
          { w with cache := (w.cache.get p (SourceCache.stampOf n)).1 }) := rfl
    rw [hfind]
    generalize w.cache.get p (SourceCache.stampOf n) = got
    obtain ⟨cache, _ | text⟩ := got
    · cases d.contents p <;> rfl
    · rfl

theorem run_readThrough (d : Disk) (p : Path) (w : World) :
    ∃ cache, ((readThrough CacheCalls.world d p).run w).2 = { w with cache } := by
  rw [run_readThrough_eq]
  split
  · exact ⟨w.cache, rfl⟩
  · split
    · exact ⟨_, rfl⟩
    · split <;> exact ⟨_, rfl⟩

theorem run_logNote (logger : Bytes) (n : ParseNote) : ∃ entry, ∀ w, (logNote logger n).run w = ((), w.log entry) := by
  cases n <;> exact ⟨_, fun w => rfl⟩

theorem ParserSettings.keeps_host (s : ParserSettings) {away : Place → Prop} {w : World}
    (h : w.LogAvoids away) : s.host.Keeps (World.Idle away w) where
  read p w' hw' := by
    unfold host SourceReader.read
    cases s.reader with
    | disk => exact hw'
    | cached =>
      obtain ⟨cache, hrun⟩ := run_readThrough w'.disk p w'
      show w.Idle away ((readThrough CacheCalls.world w'.disk p).run w').2
      rw [hrun]
      exact ⟨hw'.disk, hw'.environment, hw'.logging, hw'.cancelled, hw'.calls⟩
    | memory texts =>
      simp only
      split <;> exact hw'
  present p w' hw' := hw'
  note n w' hw' := by
    obtain ⟨entry, hrun⟩ := run_logNote s.logger n
    rw [host, hrun]
    exact hw'.trans (World.idle_log (h.of_idle hw') entry)

theorem run_parseFile (s : ParserSettings) (path : Path) (w : World) :
    (parseFile s path).run w = (parse s.host (s.options w) path).run.run w := by
  unfold parseFile
  rw [StateT.run_bind]
  generalize parse s.host = p
  rfl

theorem parseFile_idle (s : ParserSettings) (path : Path) {away : Place → Prop} {w w' : World}
    (h : w.LogAvoids away) {r : Except ParseError Recovered} (hrun : (parseFile s path).run w = (r, w')) :
    w.Idle away w' ∧ ∀ rec, r = .ok rec → rec.WellFormed := by
  obtain ⟨r', s', hr, hidle, hwell⟩ :=
    runs_parse (s.keeps_host h) (s.options w) path w (.refl away w)
  rw [← run_parseFile, hrun] at hr
  cases hr
  exact ⟨hidle, hwell⟩

end ShaderForge
