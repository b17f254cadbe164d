import ShaderForge.Command.Program
import ShaderForge.Files.Change
import ShaderForge.Log.Clock

/-!
# ShaderForge.Main

The command line. The file tree around the working directory is read into a world, the command runs on it, and what
it changed is written back. No program can be started from here, so a stage is compiled only by a tool inside the
world.

* `readTree`, `apply` — files in and out.
* `main`.
-/

open ShaderForge

namespace ShaderForge.CommandLine

def placeOf (path : String) : Place := (Path.components (utf8 path)).filter (· ≠ [])

def systemPath? (place : Place) : Option String :=
  String.fromUTF8? ⟨(Bytes.slash :: Bytes.join [Bytes.slash] place).toArray⟩

def modifiedAt (m : IO.FS.Metadata) : Int := m.modified.sec * 1000000000 + m.modified.nsec.toNat

/-- A directory entry and everything below it. Links are kept as links. -/
partial def readEntry (above : Place) (e : IO.FS.DirEntry) : IO (List (Place × Node)) := do
  let place := above ++ [utf8 e.fileName]
  let m ← e.path.symlinkMetadata
  match m.type with
  | .dir =>
    let below ← (← e.path.readDir).toList.mapM (readEntry place)
    return (place, .directory) :: below.flatten
  | .symlink =>
    try
      return [(place, .link (utf8 (← IO.FS.realPath e.path).toString))]
    catch _ => return []
  | _ => return [(place, .file (← IO.FS.readBinFile e.path).toList (modifiedAt m))]

def readTree (path : String) : IO (List (Place × Node)) := do
  let place := placeOf path
  let below ← (← (← IO.FS.realPath path).readDir).toList.mapM (readEntry place)
  return below.flatten

def parents (place : Place) : List (Place × Node) :=
  (List.range place.length).map fun n => (place.take (n + 1), .directory)

def readPath (path : String) : IO (List (Place × Node)) := do
  try
    let place := placeOf path
    let m ← (← IO.FS.realPath path).metadata
    if m.type == .dir then return parents place ++ (← readTree path)
    else return parents place.dropLast ++ [(place, .file (← IO.FS.readBinFile path).toList (modifiedAt m))]
  catch _ => return []

def tidy (nodes : List (Place × Node)) : List (Place × Node) :=
  nodes.foldl (fun kept n => if kept.any (·.1 = n.1) then kept else kept ++ [n]) []

def processors : IO Nat := do
  try
    let lines ← IO.FS.lines "/proc/cpuinfo"
    return max 1 (lines.filter (·.startsWith "processor")).size
  catch _ => return 1

def startTime : IO Bytes := do
  try
    let m ← (← IO.FS.realPath "/proc/self").metadata
    return clockText ((modifiedAt m).toNat / 1000000)
  catch _ => return clockText 0

def startWorld (args : List String) : IO World := do
  let cwd := (← IO.currentDir).toString
  let environment : Environment :=
    { home := (← IO.getEnv "HOME").map utf8
      configHome := (← IO.getEnv "XDG_CONFIG_HOME").map utf8
      tempDir := (((← IO.getEnv "TMPDIR").filter (· ≠ "")).map utf8).getD (utf8 "/tmp")
      processors := ← processors
      logTime := ← startTime
      logCaller := utf8 "shaderc" }
  let named := ((args.map utf8) ++ [userSettingsPath environment]).filterMap fun a =>
    systemPath? ((Path.components (Path.absolute (utf8 cwd) a)).filter (· ≠ []))
  let outside := named.filter fun p => p ≠ "/" && !(utf8 p).startsWith (utf8 cwd)
  let roots := placeOf cwd :: [(Path.components environment.tempDir).filter (· ≠ [])]
  let trees ← ([cwd] ++ outside).mapM readPath
  return { disk := { nodes := tidy (roots.flatMap parents ++ trees.flatten), cwd := placeOf cwd }, environment }

def apply (c : Change) : IO Unit := do
  match c with
  | .directory place => if let some path := systemPath? place then IO.FS.createDir path
  | .file place content => if let some path := systemPath? place then IO.FS.writeBinFile path ⟨content.toArray⟩
  | .gone place wasDirectory =>
    if let some path := systemPath? place then
      if wasDirectory then IO.FS.removeDir path else IO.FS.removeFile path

def write (stream : IO.FS.Stream) (text : Bytes) : IO Unit := do
  stream.write ⟨text.toArray⟩
  stream.flush

end ShaderForge.CommandLine

open ShaderForge.CommandLine in
def main (args : List String) : IO UInt32 := do
  let start ← startWorld args
  let (exit, world) := (Program.run default (args.map utf8)).run start
  (changes start.disk world.disk).forM apply
  write (← IO.getStdout) world.stdout
  write (← IO.getStderr) world.stderr
  match exit with
  | .code n => return UInt32.ofNat n
  | .crash => return 2
