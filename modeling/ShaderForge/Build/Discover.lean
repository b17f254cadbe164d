import ShaderForge.Files.Disk
import ShaderForge.Ignore.Rule
import ShaderForge.Pipeline.Compile

/-!
# ShaderForge.Build.Discover

Which shaders lie under a directory. Hidden entries and ignored paths are left out with everything below them;
links are not followed.

* `Job`          — one shader to compile.
* `jobsBelow`    — the walk through the directories, by path.
* `shadersUnder` — the jobs of a directory by relative path; no two may give the same artifact.
* `discover`     — the same with the rules of an ignore file.
-/

namespace ShaderForge

/-- One shader to compile: its name, its path, its path below the root, and its artifact's path below the output
directory. -/
structure Job where
  name : Bytes
  path : Path
  relative : Path
  artifact : Path
  deriving DecidableEq, Repr, Inhabited

inductive DiscoverError where
  | root (error : FileError)
  | notDirectory (path : Path)
  | ignoreFile (path : Path) (error : FileError)
  | duplicate (first second artifact : Path)
  deriving DecidableEq, Repr

def DiscoverError.message : DiscoverError → Bytes
  | .root error => error.message
  | .notDirectory path => path ++ " is not a directory"
  | .ignoreFile path error => "reading " ++ path ++ ": " ++ error.message
  | .duplicate first second artifact =>
    "shaders map to the same artifact: " ++ first ++ " and " ++ second ++ " -> " ++ artifact

def isHidden (name : Bytes) : Bool := name.head? = some (octet '.')

def loadIgnore (d : Disk) (root : Path) (ignoreFile : Path) : Except DiscoverError IgnoreRules :=
  if ignoreFile = [] then .ok []
  else
    let path := Path.join root ignoreFile
    match d.stat path with
    | .error ⟨_, _, .notFound⟩ => .ok []
    | _ =>
      match d.contents path with
      | .ok content => .ok (IgnoreRules.ofText content)
      | .error e => .error (.ignoreFile path e)

def relativePath (cs : List Bytes) : Path := Bytes.join [Bytes.slash] cs

/-- The job of the source file at a path; `below` are the components that lead to it from the root. -/
def jobOf (path : Path) (below : List Bytes) : Option Job :=
  let name := below.getLastD []
  let ext := Path.ext name
  if Bytes.equalFold ext shaderExt then
    let stem := Bytes.trimSuffix name ext
    let relative := relativePath below
    some { name := stem, path, relative, artifact := Path.join (Path.dir relative) (artifactName stem) }
  else none

/-- The jobs of an entry of the directory at a path, where `above` are the components that lead to the directory from
the root. What is in a directory is told by `walk`. -/
def visit (ignores : Path → Bool) (walk : Path → List Bytes → Except FileError (List Job)) (path : Path)
    (above : List Bytes) (entry : Bytes × Node) : Except FileError (List Job) :=
  let inner := Path.join path entry.1
  let below := above ++ [entry.1]
  if isHidden entry.1 || ignores (relativePath below) then .ok []
  else match entry.2 with
    | .directory => walk inner below
    | .file _ _ => .ok (jobOf inner below).toList
    | .link _ => .ok []

/-- The jobs in the directory at a path. Paths grow with each directory that is entered, so that none is entered when
the budget is spent: its path is too long. -/
def jobsBelow (d : Disk) (ignores : Path → Bool) : (budget : Nat) → (path : Path) → (above : List Bytes) →
    Except FileError (List Job)
  | 0, path, _ => .error ⟨"open", path, .nameTooLong⟩
  | budget + 1, path, above => do
    let entries ← d.readDir path
    let found ← entries.mapM (visit ignores (jobsBelow d ignores budget) path above)
    return found.flatten

def clash? : (seen : List Job) → List Job → Option DiscoverError
  | _, [] => none
  | seen, j :: js =>
    match seen.find? (·.artifact = j.artifact) with
    | some first => some (.duplicate first.relative j.relative j.artifact)
    | none => clash? (j :: seen) js

/-- The shaders under a directory that are not ignored. A root that is itself a link holds none. -/
def shadersUnder (d : Disk) (root : Path) (ignores : Path → Bool) : Except DiscoverError (List Job) :=
  match d.lstat root with
  | .error e => .error (.root e)
  | .ok .directory =>
    match jobsBelow d ignores Disk.maxPath root [] with
    | .error e => .error (.root e)
    | .ok found =>
      let jobs := sortBy (fun a b => Bytes.precedes a.relative b.relative) found
      match clash? [] jobs with
      | some e => .error e
      | none => .ok jobs
  | .ok _ => .ok []

def discover (d : Disk) (root ignoreFile : Path) : Except DiscoverError (List Job) :=
  match d.stat root with
  | .error e => .error (.root e)
  | .ok .directory =>
    match loadIgnore d root ignoreFile with
    | .error e => .error e
    | .ok rules => shadersUnder d root rules.ignores
  | .ok _ => .error (.notDirectory root)

end ShaderForge
