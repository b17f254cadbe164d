import ShaderForge.Source.Structure
import ShaderForge.World

/-!
# ShaderForge.Pipeline.Reading

Parsing inside the world: where sources are read from, and how notes reach the log.

* `SourceReader`   — files read afresh, files read through the cache, or texts held in memory.
* `ParserSettings` — what a parse depends on.
* `parseFile`      — a parse as an action.
-/

namespace ShaderForge

inductive SourceReader where
  | disk
  | cached
  | memory (texts : List (Path × Bytes))
  deriving Repr, Inhabited

structure ParserSettings where
  includeDirs : List Path := []
  maxDepth : Int := 0
  strict : Bool := false
  reader : SourceReader := .disk
  logger : Bytes := []
  deriving Repr, Inhabited

def CacheCalls.world : CacheCalls Action where
  find path stamp := do
    let w ← get
    let (cache, found) := w.cache.get path stamp
    set { w with cache }
    return found
  keep path stamp text := modify fun w => { w with cache := w.cache.set path stamp text }

def SourceReader.read (r : SourceReader) (p : Path) : Action (Except FileError Bytes) :=
  match r with
  | .disk => Action.look fun d => readSource d p
  | .cached => do readThrough CacheCalls.world (← get).disk p
  | .memory texts =>
    match texts.lookup p with
    | some text => return .ok text
    | none => return .error ⟨"open", p, .absent⟩

def logNote (logger : Bytes) : ParseNote → Action Unit
  | .included target path depth =>
    Action.log .debug logger "include resolved"
      [.text "target" target, .text "path" path, .nat "depth" depth]
  | .withoutLayout name =>
    Action.log .debug logger "export has no layout struct" [.text "export" name]
  | .parsed stages exports lines =>
    Action.log .debug logger "shader parsed"
      [.nat "stages" stages, .nat "exports" exports, .nat "lines" lines]

namespace ParserSettings

def host (s : ParserSettings) : Host Action where
  read := s.reader.read
  present p := Action.look fun d => d.isPresent p
  note := logNote s.logger

def options (s : ParserSettings) (w : World) : ParseOptions where
  cwd := w.disk.cwdPath
  includeDirs := s.includeDirs
  maxDepth := depthLimit s.maxDepth
  strict := s.strict

end ParserSettings

def mergeFile (s : ParserSettings) (path : Path) : Action (Except ParseError Merged) := do
  (resolve s.host (s.options (← get)).toIncludeOptions path).run

def mergeText (s : ParserSettings) (path : Path) (text : Bytes) : Action (Except ParseError Merged) := do
  (resolveText s.host (s.options (← get)).toIncludeOptions path text).run

def parseFile (s : ParserSettings) (path : Path) : Action (Except ParseError Recovered) := do
  (parse s.host (s.options (← get)) path).run

def parseSource (s : ParserSettings) (path : Path) (text : Bytes) :
    Action (Except ParseError Recovered) := do
  (parseText s.host (s.options (← get)) path text).run

end ShaderForge
