import ShaderForge.Build.Discover

/-!
# ShaderForge.Build.Run

Compiling every shader under a directory. All jobs are tried even when some fail; once work is cancelled, jobs not
yet begun fail at once. Headers that several shaders share are read through the cache.

* `JobResult`, `Report`.
* `runBuild` — the whole batch, with its report.
-/

namespace ShaderForge

structure BuildOptions where
  pipeline : PipelineOptions := {}
  backend : Backend := .directX12
  outputDir : Path := []
  ignoreFile : Path := []
  logger : Bytes := []

inductive JobError where
  | compile (error : CompileError)
  | cancelled
  deriving DecidableEq, Repr

def JobError.message : JobError → Bytes
  | .compile error => error.message
  | .cancelled => "context canceled"

def JobError.breaksOff : JobError → Bool
  | .compile error => error.cause.breaksOff
  | .cancelled => false

structure JobResult where
  job : Job
  outcome : Except JobError Path
  deriving Repr

structure Report where
  results : List JobResult
  cacheHits : Nat
  cacheMisses : Nat
  deriving Repr

namespace Report

def failures (r : Report) : List (Job × JobError) :=
  r.results.filterMap fun j =>
    match j.outcome with
    | .error e => some (j.job, e)
    | .ok _ => none

def failed (r : Report) : Nat := r.failures.length
def built (r : Report) : Nat := r.results.length - r.failed

end Report

def failureText (f : Job × JobError) : Bytes := f.1.relative ++ ": " ++ f.2.message

def failuresText (fs : List (Job × JobError)) : Bytes := Bytes.join "; " (fs.map failureText)

def JobResult.compiled (j : Job) : Except CompileError Path → JobResult
  | .ok path => ⟨j, .ok path⟩
  | .error e => ⟨j, .error (.compile e)⟩

def JobResult.dropped (j : Job) : JobResult := ⟨j, .error .cancelled⟩

/-- Compiles one shader. Its artifact goes below the output directory as its source lies below the root. -/
def compileJob (o : BuildOptions) (j : Job) : Action JobResult := do
  let outDir := Path.join o.outputDir (Path.dir j.artifact)
  return .compiled j (← compileShader o.pipeline j.name j.path o.backend outDir)

def runJob (o : BuildOptions) (j : Job) : Action JobResult := do
  if (← get).cancelled then return .dropped j else compileJob o j

/-- How many workers share the jobs: as many as asked for, or one for each processor, but none without a job. -/
def workerCount (workers : Int) (processors jobs : Nat) : Nat :=
  min (if workers ≤ 0 then processors else workers.toNat) jobs

def logResult (logger : Bytes) (r : JobResult) : Action Unit :=
  match r.outcome with
  | .ok path =>
    Action.log .debug logger "shader built"
      [.text "shader" r.job.relative, .text "artifact" path, .duration "duration" ⟨0⟩]
  | .error e =>
    Action.log .error logger "shader failed"
      [.text "shader" r.job.relative, .error e.message []]

def runBuild (o : BuildOptions) (root : Path) : Action (Except DiscoverError Report) := do
  match discover (← get).disk root o.ignoreFile with
  | .error e => return .error e
  | .ok jobs =>
    Action.log .info o.logger "shaders discovered" [.text "root" root, .nat "count" jobs.length]
    modify fun w => { w with cache := {} }
    let results ← jobs.mapM (runJob o)
    results.forM (logResult o.logger)
    let cache := (← get).cache
    modify fun w => { w with cache := {} }
    let report : Report := ⟨results, cache.hits, cache.misses⟩
    Action.log .info o.logger "build finished"
      [.nat "built" report.built, .nat "failed" report.failed, .nat "cacheHits" report.cacheHits]
    return .ok report

end ShaderForge
