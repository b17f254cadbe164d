import ShaderForge.Source.Error

/-!
# ShaderForge.Source.Include

Inlining `#include "path"` directives.

An included text takes the place of its directive: what stands before the directive joins the first
included line, what follows joins the last. A line keeps the place of its last part. Targets are looked up
beside the root file, then in the include directories; a file may not include itself through any chain,
and chains are no longer than a limit.

* `cutDirectives` — a line as text with directives between.
* `Host`          — what merging needs from its surroundings, in any monad.
* `expand`        — the merged lines of a text, by recursion on how much deeper includes may nest.
* `resolve`, `resolveText` — the merged text and its `SourceMap`.
-/

namespace ShaderForge

/-- The white space of the source language's lexical patterns. -/
def isLexSpace (b : UInt8) : Bool := b = 0x20 || b = 0x09 || b = 0x0A || b = 0x0C || b = 0x0D

def directive? (s : Bytes) : Option (Bytes × Nat) := do
  let rest ← Bytes.after? "#include" s
  let opened := rest.dropWhile isLexSpace
  if opened.length = rest.length then none
  else
    let inside ← Bytes.after? [Bytes.quote] opened
    let (target, rest) ← Bytes.cut? Bytes.quote inside
    if target.isEmpty then none else some (target, s.length - rest.length)

/-- A line as its text up to the first directive, then each target with the text behind it; the first
`skip` octets belong to a directive already read. -/
def cutDirectivesFrom : Nat → Bytes → Bytes × List (Bytes × Bytes)
  | _, [] => ([], [])
  | skip + 1, _ :: s => cutDirectivesFrom skip s
  | 0, b :: s =>
    match directive? (b :: s) with
    | some (target, width) =>
      let (text, more) := cutDirectivesFrom (width - 1) s
      ([], (target, text) :: more)
    | none =>
      let (text, more) := cutDirectivesFrom 0 s
      (b :: text, more)

def cutDirectives (line : Bytes) : Bytes × List (Bytes × Bytes) := cutDirectivesFrom 0 line

structure MergedLine where
  text : Bytes
  origin : Location
  deriving DecidableEq, Repr, Inhabited

/-- Puts included lines behind a line begun: its text joins the first of them. The last one is still
open; the others are complete. -/
def splice (begun : MergedLine) : List MergedLine → List MergedLine × MergedLine
  | [] => ([], begun)
  | first :: rest =>
    let joined := { first with text := begun.text ++ first.text }
    match rest.getLast? with
    | none => ([], joined)
    | some last => (joined :: rest.dropLast, last)

inductive ParseNote where
  | included (target : Bytes) (path : Path) (depth : Nat)
  | withoutLayout (name : Bytes)
  | parsed (stages exports lines : Nat)
  deriving DecidableEq, Repr

structure Host (m : Type → Type) where
  read : Path → m (Except FileError Bytes)
  present : Path → m Bool
  note : ParseNote → m Unit

structure IncludeOptions where
  cwd : Path
  includeDirs : List Path := []
  maxDepth : Nat := 32
  deriving Repr, Inhabited

def defaultMaxDepth : Nat := 32

def depthLimit (n : Int) : Nat := if 0 < n then n.toNat else defaultMaxDepth

variable {m : Type → Type} [Monad m]

def firstPresent (host : Host m) : List Path → m (Option Path)
  | [] => pure none
  | p :: ps => do if ← host.present p then pure (some p) else firstPresent host ps

/-- The path that a target names. Relative targets are looked up in `root`, then in the include
directories; one that is nowhere present is taken to be beside the root file. -/
def locateTarget (host : Host m) (opts : IncludeOptions) (root target : Path) : m Path :=
  if Path.isAbsolute target then pure (Path.clean target)
  else do
    let candidates := (root :: opts.includeDirs).map fun dir =>
      Path.absolute opts.cwd (Path.join dir target)
    match ← firstPresent host candidates with
    | some p => pure p
    | none => pure (Path.clean (Path.join root target))

abbrev Merge (m : Type → Type) := ExceptT ParseError m

def includeFault {α : Type} (place : Location) (fault : IncludeFault) : Merge m α :=
  throw ⟨place.file, place.line, .badInclude fault⟩

/-- The file that a directive names and its text. The chain holds the files being merged, the root
first. -/
def fetch (host : Host m) (opts : IncludeOptions) (root : Path) (chain : List Path)
    (place : Location) (target : Bytes) : Merge m (Path × Bytes) := do
  let path ← (locateTarget host opts root target : m Path)
  if chain.contains path then includeFault place (.cycle (chain ++ [path]))
  else match ← (host.read path : m _) with
    | .error e => includeFault place (.unreadable target e)
    | .ok text => do
      (host.note (.included target path chain.length) : m Unit)
      return (path, text)

def expandLine (follow : Location → Bytes → Merge m (List MergedLine)) (place : Location)
    (line : Bytes) : Merge m (List MergedLine) := do
  let (head, directives) := cutDirectives line
  let (done, last) ← directives.foldlM (fun (done, begun) (target, after) => do
      let (complete, last) := splice begun (← follow place target)
      return (done ++ complete, { last with text := last.text ++ after }))
    (([] : List MergedLine), (⟨head, place⟩ : MergedLine))
  return done ++ [last]

def expandLines (follow : Location → Bytes → Merge m (List MergedLine)) (file : Path) :
    (number : Nat) → List Bytes → Merge m (List MergedLine)
  | _, [] => return []
  | number, line :: lines => do
    let first ← expandLine follow ⟨file, number⟩ line
    return first ++ (← expandLines follow file (number + 1) lines)

/-- The merged lines of the text of the last file of the chain. Includes may nest `budget` deeper. -/
def expand (host : Host m) (opts : IncludeOptions) (root : Path) :
    (budget : Nat) → (chain : List Path) → (file : Path) → (text : Bytes) → Merge m (List MergedLine)
  | 0, _, file, text =>
    expandLines (fun place target => includeFault place (.tooDeep target opts.maxDepth)) file 1
      (Bytes.lines text)
  | budget + 1, chain, file, text =>
    expandLines (fun place target => do
        let (path, text) ← fetch host opts root chain place target
        expand host opts root budget (chain ++ [path]) path text)
      file 1 (Bytes.lines text)

structure Merged where
  text : Bytes
  map : SourceMap
  deriving DecidableEq, Repr, Inhabited

def Merged.ofLines (ls : List MergedLine) : Merged :=
  ⟨Bytes.joinLines (ls.map MergedLine.text), ⟨ls.map MergedLine.origin⟩⟩

def resolveText (host : Host m) (opts : IncludeOptions) (path : Path) (text : Bytes) :
    Merge m Merged := do
  let file := Path.absolute opts.cwd path
  let ls ← expand host opts (Path.dir file) opts.maxDepth [file] file text
  return Merged.ofLines ls

def resolve (host : Host m) (opts : IncludeOptions) (path : Path) : Merge m Merged := do
  let file := Path.absolute opts.cwd path
  match ← (host.read file : m _) with
  | .error e => throw ⟨path, 0, .unreadable e⟩
  | .ok text => resolveText host opts file text

end ShaderForge
