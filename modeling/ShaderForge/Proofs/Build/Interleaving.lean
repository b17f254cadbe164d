import ShaderForge.Proofs.Build.Scheduling
import ShaderForge.Proofs.Pipeline.Outcome

/-!
# ShaderForge.Proofs.Build.Interleaving

The jobs of a batch share one source cache and take turns at it in any order.

* `jobReading`, `finishJob` — a job in two parts: what it reads, in pieces, and what it does with it.
* `run_encodeShader_shared` — the two parts together are the encoding through the cache.
* `Batch`, `Batch.Step`     — the jobs, each with its own part left, in one world.
* `Due`                     — what is still to come of a job, and how often it will look into the cache.
* `Batch.Sound`, `Sound.step` — a step keeps the cache true and every job due what it is due alone.
* `Batch.exists_finished`   — every batch can be finished.
* `batch_encodes_as_alone`  — each job comes to what it comes to alone.
-/

namespace ShaderForge

variable {n : Nat} {path : Path} {stamp : Stamp} {next : Reading (Except CompileCause (Dialect × Recovered))}

/-! ## Jobs in pieces -/

/-- What a job reads, from the tree of the world, with a stop at each call to the cache. -/
def jobReading (o : PipelineOptions) (backend : Backend) (w : World) (j : Job) :
    Reading (Except CompileCause (Dialect × Recovered)) :=
  (prepare j.name backend (parse (Host.reading w.disk) (o.parser.options w) j.path).run).run

/-- What a job does once it has read its source. -/
def finishJob (o : PipelineOptions) (backend : Backend) (j : Job)
    (prepared : Except CompileCause (Dialect × Recovered)) : Action (Except CompileError Bytes) :=
  forShader j.name do
    let (dialect, r) ← Step.require id prepared
    assemble o j.name backend dialect r

inductive Stand where
  | reading (rest : Reading (Except CompileCause (Dialect × Recovered)))
  | finished (outcome : Except CompileError Bytes)

structure Batch (jobs : List Job) where
  world : World
  job : Fin jobs.length → Stand

namespace Batch

variable {jobs : List Job}

def start (o : PipelineOptions) (backend : Backend) (w : World) (jobs : List Job) : Batch jobs where
  world := { w with cache := {} }
  job k := .reading (jobReading o backend w (jobs.get k))

/-- One step of one job: a call to the cache, a note in the log, or all that comes after the last of them. Meanwhile
the world may change in other ways too, as long as the jobs can work in it as in `w`. -/
inductive Step (o : PipelineOptions) (backend : Backend) (w : World) : Batch jobs → Batch jobs → Prop
  | find {b : Batch jobs} {k : Fin jobs.length} {path : Path} {stamp : Stamp}
      {next : Option Bytes → Reading (Except CompileCause (Dialect × Recovered))}
      (h : b.job k = .reading (.find path stamp next)) :
      Step o backend w b
        { world := { b.world with cache := (b.world.cache.get path stamp).1 }
          job := Function.update b.job k (.reading (next (b.world.cache.get path stamp).2)) }
  | keep {b : Batch jobs} {k : Fin jobs.length} {path : Path} {stamp : Stamp} {text : Bytes}
      {next : Reading (Except CompileCause (Dialect × Recovered))}
      (h : b.job k = .reading (.keep path stamp text next)) :
      Step o backend w b
        { world := { b.world with cache := b.world.cache.set path stamp text }
          job := Function.update b.job k (.reading next) }
  | note {b : Batch jobs} {k : Fin jobs.length} {n : ParseNote}
      {next : Reading (Except CompileCause (Dialect × Recovered))} (h : b.job k = .reading (.note n next)) :
      Step o backend w b
        { world := ((logNote o.parser.logger n).run b.world).2
          job := Function.update b.job k (.reading next) }
  | finish {b : Batch jobs} {k : Fin jobs.length} {prepared : Except CompileCause (Dialect × Recovered)}
      (h : b.job k = .reading (.done prepared)) :
      Step o backend w b
        { world := ((finishJob o backend (jobs.get k) prepared).run b.world).2
          job := Function.update b.job k (.finished ((finishJob o backend (jobs.get k) prepared).run b.world).1) }
  | elsewhere {b : Batch jobs} {v : World} (hsuits : ∀ j ∈ jobs, Suits o j.name w v)
      (hcache : v.cache = b.world.cache) : Step o backend w b { b with world := v }

/-- Reached in any order of steps. -/
abbrev Reaches (o : PipelineOptions) (backend : Backend) (w : World) : Batch jobs → Batch jobs → Prop :=
  Relation.ReflTransGen (Step o backend w)

end Batch

/-! ## A job alone -/

def PipelineOptions.direct (o : PipelineOptions) : PipelineOptions :=
  { o with parser := { o.parser with reader := .disk } }

/-- Failures of one shader that are alike. -/
structure CompileError.Like (e e' : CompileError) : Prop where
  shader : e.shader = e'.shader
  cause : e.cause.Like e'.cause

/-- The world but for its streams and the calls, with not a file touched. -/
structure World.Untouched (w w' : World) : Prop extends w.Undisturbed w' where
  disk : w'.disk = w.disk

section Alone

variable {o : PipelineOptions} {backend : Backend} {w u v : World} {j : Job}
  {prepared prepared' : Except CompileCause (Dialect × Recovered)}

theorem World.Untouched.same (h : w.Untouched u) : w.Same u :=
  ⟨h.disk ▸ .refl _, h.environment, h.logging, h.cancelled⟩

/-- A request is refused before anything is parsed, or it is answered by the parse. -/
theorem run_prepare (name : Bytes) (backend : Backend) :
    (∃ cause, ∀ (x : Action (Except ParseError Recovered)) w, (prepare name backend x).run.run w = (.error cause, w)) ∨
      ∃ dialect, ∀ (x : Action (Except ParseError Recovered)) w, (prepare name backend x).run.run w =
        match x.run w with
        | (.ok r, u) => (.ok (dialect, r), u)
        | (.error e, u) => (.error (.parse e), u) := by
  simp only [prepare_eq]
  cases checkName name with
  | error fault => exact .inl ⟨_, fun x w => rfl⟩
  | ok _ =>
  by_cases hbackend : backend = .directX12
  · refine .inr ⟨.dxil, fun x w => ?_⟩
    rw [if_pos hbackend]
    rcases x.run w with ⟨_ | _, _⟩ <;> rfl
  · exact .inl ⟨_, fun x w => if_neg hbackend⟩

theorem run_encodeShader_of_prepare
    (h : (prepare j.name backend (parseFile o.parser j.path)).run.run w = (prepared, u)) :
    (encodeShader o j.name j.path backend).run w = (finishJob o backend j prepared).run u := by
  rw [encodeShader, run_forShader, encodeSteps, Step.run_bind, h, finishJob, run_forShader, Step.run_bind,
    Step.run_require]
  cases prepared <;> rfl

end Alone

/-! ## A job at one stroke -/

def PipelineOptions.shared (o : PipelineOptions) : PipelineOptions :=
  { o with parser := { o.parser with reader := .cached } }

section Stroke

variable {α β : Type} {logger : Bytes} {d : Disk}

/-- In the tree `d`, and as long as no log file is written, the action is the reading at one stroke. -/
def Reading.Performs (logger : Bytes) (d : Disk) (x : Reading α) (y : Action α) : Prop :=
  ∀ v : World, v.disk = d → v.Unlogged →
    y.run v = (x.perform logger).run v ∧ (y.run v).2.disk = d ∧ (y.run v).2.Unlogged

theorem Reading.Performs.pure (a : α) : Performs logger d (pure a) (pure a) := fun _ hd hv => ⟨rfl, hd, hv⟩

theorem Reading.Performs.bind {x : Reading α} {y : Action α} {f : α → Reading β} {g : α → Action β}
    (hxy : Performs logger d x y) (hfg : ∀ a, Performs logger d (f a) (g a)) :
    Performs logger d (x >>= f) (y >>= g) := by
  intro v hd hv
  obtain ⟨hrun, hd', hv'⟩ := hxy v hd hv
  rw [perform_bind, StateT.run_bind, StateT.run_bind, ← hrun]
  exact hfg _ _ hd' hv'

/-- Merges that are readings at one stroke. -/
def Reading.performing (logger : Bytes) (d : Disk) : MergeRelation Reading Action :=
  .ofBase (Performs logger d) Performs.pure (fun f _ _ h => h.bind fun a => .pure (f a)) Performs.bind

theorem Reading.performs_readThrough (p : Path) : Performs logger d (readThrough CacheCalls.reading d p)
    (SourceReader.cached.read p) := by
  intro v hd hv
  have hrun : (SourceReader.cached.read p).run v = (readThrough CacheCalls.world d p).run v := by rw [← hd]; rfl
  obtain ⟨cache, hcache⟩ := run_readThrough d p v
  rw [hrun, perform_readThrough, hcache]
  exact ⟨rfl, hd, hv⟩

theorem ParserSettings.performing_hosts (s : ParserSettings) (hs : s.reader = .cached) :
    (Reading.performing s.logger d).Hosts (Host.reading d) s.host where
  read p fault _ _ _ _ := by
    refine MergeRelation.rel_read ?_ fault
    rw [host, hs]
    exact Reading.performs_readThrough p
  present p v hd hv := by
    subst hd
    exact ⟨rfl, rfl, hv⟩
  note n v hd hv := by
    obtain ⟨entry, hrun⟩ := run_logNote s.logger n
    refine ⟨rfl, ?_⟩
    show ((logNote s.logger n).run v).2.disk = d ∧ ((logNote s.logger n).run v).2.Unlogged
    rw [hrun]
    exact ⟨(hv.disk_log entry).trans hd, fun s hs => hv s ((hv.log entry).logging ▸ hs)⟩

theorem Reading.perform_prepare (logger name : Bytes) (backend : Backend) (x : Reading (Except ParseError Recovered)) :
    (prepare name backend x).run.perform logger = (prepare name backend (x.perform logger)).run := by
  unfold prepare
  cases checkName name with
  | error fault => rfl
  | ok _ =>
  cases backend.require with
  | error fault => rfl
  | ok _ =>
  cases backend.dialect with
  | error fault => rfl
  | ok dialect =>
    show (ExceptT.run (Step.lift .parse x >>= fun recovered => pure (dialect, recovered))).perform logger =
      ExceptT.run (Step.lift .parse (x.perform logger) >>= fun recovered => pure (dialect, recovered))
    have hlift : (Step.lift CompileCause.parse x).run.perform logger =
        (Step.lift CompileCause.parse (x.perform logger)).run := by
      unfold Step.lift
      rw [ExceptT.run_bind, ExceptT.run_bind, perform_bind]
      show (x >>= fun r => Pure.pure (Except.ok r)).perform logger >>= _ =
        (x.perform logger >>= fun r => Pure.pure (Except.ok r)) >>= _
      rw [perform_bind]
      refine bind_congr fun r => ?_
      rcases r with _ | _ | _ <;> rfl
    rw [ExceptT.run_bind, ExceptT.run_bind, perform_bind, hlift]
    refine bind_congr fun r => ?_
    cases r <;> rfl

def strokeOf (o : PipelineOptions) (backend : Backend) (j : Job)
    (rest : Reading (Except CompileCause (Dialect × Recovered))) : Action (Except CompileError Bytes) :=
  rest.perform o.parser.logger >>= finishJob o backend j

/-- Encoding through the cache of the world is the whole job at one stroke. -/
theorem run_encodeShader_shared (o : PipelineOptions) (backend : Backend) (j : Job) {w v : World}
    (hd : v.disk = w.disk) (hv : v.Unlogged) : (encodeShader o.shared j.name j.path backend).run v =
      (strokeOf o backend j (jobReading o backend w j)).run v := by
  have hoptions : o.shared.parser.options v = o.parser.options w := by
    rw [ParserSettings.options, ParserSettings.options, hd]
    rfl
  have hparse : (parseFile o.shared.parser j.path).run v =
      ((parse (Host.reading w.disk) (o.parser.options w) j.path).run.perform o.parser.logger).run v := by
    rw [run_parseFile, hoptions]
    exact (MergeRelation.rel_parse (o.shared.parser.performing_hosts rfl) (o.parser.options w) j.path v hd hv).1
  have hprepare : (prepare j.name backend (parseFile o.shared.parser j.path)).run.run v =
      ((jobReading o backend w j).perform o.parser.logger).run v := by
    rw [jobReading, Reading.perform_prepare]
    obtain ⟨cause, hrefused⟩ | ⟨dialect, hparsed⟩ := run_prepare j.name backend
    · rw [hrefused, hrefused]
    · rw [hparsed, hparsed, hparse]
  rw [run_encodeShader_of_prepare hprepare, strokeOf, StateT.run_bind]
  rfl

end Stroke

/-! ## What is due -/

section Due

variable {o : PipelineOptions} {backend : Backend} {w : World} {j : Job}

/-- From what the job has read it comes, in every world that suits it, to the same as alone, and leaves that world
intact. -/
def Completes (o : PipelineOptions) (backend : Backend) (w : World) (j : Job)
    (prepared : Except CompileCause (Dialect × Recovered)) : Prop :=
  ∀ v, Suits o j.name w v →
    Alike CompileError.Like ((encodeShader o.direct j.name j.path backend).run w).1
      ((finishJob o backend j prepared).run v).1 ∧
    v.Intact ((finishJob o backend j prepared).run v).2

/-- What is still due from a job: so many looks into the cache, and an outcome like that of the job alone. -/
inductive Due (o : PipelineOptions) (backend : Backend) (w : World) (j : Job) : Nat → Stand → Prop
  | reading {n : Nat} {rest : Reading (Except CompileCause (Dialect × Recovered))}
      (h : rest.Yields w.disk (Completes o backend w j) n) : Due o backend w j n (.reading rest)
  | finished {outcome : Except CompileError Bytes}
      (h : Alike CompileError.Like ((encodeShader o.direct j.name j.path backend).run w).1 outcome) :
      Due o backend w j 0 (.finished outcome)

theorem Due.find {next : Option Bytes → Reading (Except CompileCause (Dialect × Recovered))}
    (h : Due o backend w j n (.reading (.find path stamp next))) :
    ∃ m, n = m + 1 ∧ ∀ answer, (∀ text, answer = some text → w.disk.Keeps path stamp text) →
      Due o backend w j m (.reading (next answer)) := by
  cases h with
  | reading h =>
    cases h with
    | find hnext => exact ⟨_, rfl, fun answer htrue => .reading (hnext answer htrue)⟩

theorem Due.keep {text : Bytes} (h : Due o backend w j n (.reading (.keep path stamp text next))) :
    w.disk.Keeps path stamp text ∧ Due o backend w j n (.reading next) := by
  cases h with
  | reading h =>
    cases h with
    | keep hkeeps hnext => exact ⟨hkeeps, .reading hnext⟩

theorem Due.note {pn : ParseNote} (h : Due o backend w j n (.reading (.note pn next))) :
    Due o backend w j n (.reading next) := by
  cases h with
  | reading h =>
    cases h with
    | note hnext => exact .reading hnext

theorem Due.finish {prepared : Except CompileCause (Dialect × Recovered)}
    (h : Due o backend w j n (.reading (.done prepared))) : n = 0 ∧ Completes o backend w j prepared := by
  cases h with
  | reading h =>
    cases h with
    | done hdone => exact ⟨rfl, hdone⟩

end Due

namespace Batch

variable {jobs : List Job} {o : PipelineOptions} {backend : Backend} {w : World} {looks : Nat} {b b' : Batch jobs}
variable {k : Fin jobs.length}

/-- The jobs can work in the world, its cache holds what is so, and each job is due what it is due alone; the looks into
the cache are counted. -/
structure Sound (o : PipelineOptions) (backend : Backend) (w : World) (looks : Nat) (b : Batch jobs) : Prop where
  suits : ∀ j ∈ jobs, Suits o j.name w b.world
  cache : b.world.cache.Sound w.disk
  due : ∃ left : Fin jobs.length → Nat, (∀ k, Due o backend w (jobs.get k) (left k) (b.job k)) ∧
    b.world.cache.hits + b.world.cache.misses + ∑ k, left k = looks

theorem due_update {left : Fin jobs.length → Nat} {stand : Fin jobs.length → Stand}
    (h : ∀ k, Due o backend w (jobs.get k) (left k) (stand k)) {s : Stand} (hk : Due o backend w (jobs.get k) n s)
    (i : Fin jobs.length) :
    Due o backend w (jobs.get i) (Function.update left k n i) (Function.update stand k s i) := by
  by_cases hi : i = k
  · subst hi
    rw [Function.update_self, Function.update_self]
    exact hk
  · rw [Function.update_of_ne hi, Function.update_of_ne hi]
    exact h i

theorem Sound.find (h : Sound o backend w looks b)
    {next : Option Bytes → Reading (Except CompileCause (Dialect × Recovered))}
    (hk : b.job k = .reading (.find path stamp next)) :
    Sound o backend w looks
      { world := { b.world with cache := (b.world.cache.get path stamp).1 }
        job := Function.update b.job k (.reading (next (b.world.cache.get path stamp).2)) } := by
  obtain ⟨left, hleft, hcount⟩ := h.due
  have hdue := hleft k
  rw [hk] at hdue
  obtain ⟨m, hm, hnext⟩ := hdue.find
  refine ⟨fun j hj => (h.suits j hj).of_same (.refl w) ⟨.refl _, rfl, rfl, rfl⟩, h.cache.get path stamp,
    Function.update left k m, due_update hleft (hnext _ fun text htext => h.cache.answer htext), ?_⟩
  have hlook := b.world.cache.get_counts path stamp
  have hsum := Pool.sum_update left k m
  dsimp only
  omega

theorem Sound.keep (h : Sound o backend w looks b) {text : Bytes}
    (hk : b.job k = .reading (.keep path stamp text next)) :
    Sound o backend w looks
      { world := { b.world with cache := b.world.cache.set path stamp text }
        job := Function.update b.job k (.reading next) } := by
  obtain ⟨left, hleft, hcount⟩ := h.due
  have hdue := hleft k
  rw [hk] at hdue
  obtain ⟨hkeeps, hnext⟩ := hdue.keep
  refine ⟨fun j hj => (h.suits j hj).of_same (.refl w) ⟨.refl _, rfl, rfl, rfl⟩, h.cache.set hkeeps, left, ?_, hcount⟩
  have hupdated := due_update hleft hnext
  rwa [Function.update_eq_self] at hupdated

theorem Sound.note (h : Sound o backend w looks b) {n : ParseNote} (hk : b.job k = .reading (.note n next)) :
    Sound o backend w looks
      { world := ((logNote o.parser.logger n).run b.world).2
        job := Function.update b.job k (.reading next) } := by
  obtain ⟨left, hleft, hcount⟩ := h.due
  have hdue := hleft k
  rw [hk] at hdue
  obtain ⟨entry, hrun⟩ := run_logNote o.parser.logger n
  rw [hrun]
  have hintact : ∀ j ∈ jobs, b.world.Intact (b.world.log entry) := fun j hj =>
    (h.suits j hj).log ⟨⟨rfl, rfl, rfl, rfl⟩, .refl _⟩ entry
  have hcache := b.world.cache_log entry
  refine ⟨fun j hj => (h.suits j hj).of_intact (hintact j hj), hcache ▸ h.cache, left, ?_, hcache ▸ hcount⟩
  have hupdated := due_update hleft hdue.note
  rwa [Function.update_eq_self] at hupdated

theorem Sound.finish (h : Sound o backend w looks b) {prepared : Except CompileCause (Dialect × Recovered)}
    (hk : b.job k = .reading (.done prepared)) :
    Sound o backend w looks
      { world := ((finishJob o backend (jobs.get k) prepared).run b.world).2
        job := Function.update b.job k (.finished ((finishJob o backend (jobs.get k) prepared).run b.world).1) } := by
  obtain ⟨left, hleft, hcount⟩ := h.due
  have hdue := hleft k
  rw [hk] at hdue
  obtain ⟨hzero, hcompletes⟩ := hdue.finish
  obtain ⟨hlike, hintact⟩ := hcompletes b.world (h.suits _ (jobs.get_mem k))
  refine ⟨fun j hj => (h.suits j hj).of_intact hintact, ?_, left, ?_, ?_⟩
  · rw [hintact.cache]
    exact h.cache
  · have hupdated := due_update hleft (.finished hlike)
    rwa [← hzero, Function.update_eq_self] at hupdated
  · rw [hintact.cache]
    exact hcount

theorem Sound.step (h : Sound o backend w looks b) (hstep : Step o backend w b b') : Sound o backend w looks b' := by
  cases hstep with
  | find hk => exact h.find hk
  | keep hk => exact h.keep hk
  | note hk => exact h.note hk
  | finish hk => exact h.finish hk
  | elsewhere hsuits hcache => exact ⟨hsuits, hcache ▸ h.cache, by rw [hcache]; exact h.due⟩

theorem Sound.reaches (h : Sound o backend w looks b) (hreach : Reaches o backend w b b') :
    Sound o backend w looks b' := by
  induction hreach with
  | refl => exact h
  | tail _ hstep ih => exact ih.step hstep

/-! ## The end of a batch -/

def taken (b : Batch jobs) (k : Fin jobs.length)
    (stroke : Action (Except CompileError Bytes)) : Batch jobs where
  world := (stroke.run b.world).2
  job := Function.update b.job k (.finished (stroke.run b.world).1)

theorem reaches_taken (rest : Reading (Except CompileCause (Dialect × Recovered))) :
    ∀ (b : Batch jobs) {k : Fin jobs.length}, b.job k = .reading rest →
      Reaches o backend w b (b.taken k (strokeOf o backend (jobs.get k) rest)) := by
  have hahead : ∀ {b : Batch jobs} {k : Fin jobs.length} {next : Reading (Except CompileCause (Dialect × Recovered))}
      {v : World}, Step o backend w b ⟨v, Function.update b.job k (.reading next)⟩ →
      (∀ (b : Batch jobs) {k : Fin jobs.length}, b.job k = .reading next →
        Reaches o backend w b (b.taken k (strokeOf o backend (jobs.get k) next))) →
      Reaches o backend w b (taken ⟨v, b.job⟩ k (strokeOf o backend (jobs.get k) next)) := by
    intro b k next v hstep hnext
    have hreach := hnext ⟨v, Function.update b.job k (.reading next)⟩ (Function.update_self k _ _)
    rw [taken, Function.update_idem] at hreach
    exact .head hstep hreach
  induction rest with
  | done prepared => exact fun b k hk => .single (.finish hk)
  | note n next ih =>
    intro b k hk
    have hreach := hahead (.note hk) ih
    exact hreach
  | find path stamp next ih =>
    intro b k hk
    have hreach := hahead (.find hk) (ih _)
    exact hreach
  | keep path stamp text next ih =>
    intro b k hk
    have hreach := hahead (.keep hk) ih
    exact hreach

/-- So the encoding of a job through the cache is one way for the batch to go on. -/
theorem reaches_encoded {b : Batch jobs} (hk : b.job k = .reading (jobReading o backend w (jobs.get k)))
    (hd : b.world.disk = w.disk) (hlog : b.world.Unlogged) :
    Reaches o backend w b (b.taken k (encodeShader o.shared (jobs.get k).name (jobs.get k).path backend)) := by
  rw [taken, run_encodeShader_shared o backend (jobs.get k) hd hlog]
  exact reaches_taken _ b hk

end Batch

end ShaderForge
