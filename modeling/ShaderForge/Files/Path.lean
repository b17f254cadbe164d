import ShaderForge.Text.Bytes

/-!
# ShaderForge.Files.Path

Paths as texts with `/` between components, worked on without looking at any file.

* `Path.clean`    — the shortest equivalent spelling.
* `Path.join`, `Path.dir`, `Path.base`, `Path.ext`, `Path.stem`.
* `Path.absolute` — relative to a working directory.
* `Path.relative?` — how to reach one path from another.
-/

namespace ShaderForge

abbrev Path := Bytes

namespace Path

open Bytes (slash)

def dot : Bytes := utf8 "."
def dotDot : Bytes := utf8 ".."

def isAbsolute : Path → Bool
  | b :: _ => b = slash
  | [] => false

def components (p : Path) : List Bytes := Bytes.split slash p

/-- Adds one component to a clean path whose components are given in reverse. -/
def cleanStep (rooted : Bool) (above : List Bytes) (c : Bytes) : List Bytes :=
  if c = [] || c = dot then above
  else if c = dotDot then
    match above with
    | [] => if rooted then [] else [dotDot]
    | top :: below => if top = dotDot then dotDot :: above else below
  else c :: above

def cleanComponents (p : Path) : List Bytes :=
  ((components p).foldl (cleanStep (isAbsolute p)) []).reverse

def ofComponents (rooted : Bool) (cs : List Bytes) : Path :=
  if rooted then slash :: Bytes.join [slash] cs
  else if cs = [] then dot
  else Bytes.join [slash] cs

def clean (p : Path) : Path := ofComponents (isAbsolute p) (cleanComponents p)

def joinAll (parts : List Path) : Path :=
  match parts.filter (· ≠ []) with
  | [] => []
  | parts => clean (Bytes.join [slash] parts)

def join (a b : Path) : Path := joinAll [a, b]

def lastPart (p : Path) : Bytes := (p.reverse.takeWhile (· ≠ slash)).reverse

def dir (p : Path) : Path := clean (p.reverse.dropWhile (· ≠ slash)).reverse

def base (p : Path) : Bytes :=
  if p = [] then dot
  else match (p.reverse.dropWhile (· = slash)).reverse with
    | [] => [slash]
    | p => lastPart p

def ext (p : Path) : Bytes :=
  let part := lastPart p
  if octet '.' ∈ part then
    (octet '.') :: (part.reverse.takeWhile (· ≠ octet '.')).reverse
  else []

def stem (p : Path) : Bytes := Bytes.trimSuffix (base p) (ext p)

def absolute (cwd p : Path) : Path := if isAbsolute p then clean p else join cwd p

def dropShared : List Bytes → List Bytes → List Bytes × List Bytes
  | a :: as, b :: bs => if a = b then dropShared as bs else (a :: as, b :: bs)
  | as, bs => (as, bs)

/-- The path that leads from `start` to `target`, if one can be told without looking at any file. -/
def relative? (start target : Path) : Option Path :=
  if isAbsolute start ≠ isAbsolute target then none
  else
    let (up, down) := dropShared (cleanComponents start) (cleanComponents target)
    if up.head? = some dotDot then none
    else some (ofComponents false (up.map (fun _ => dotDot) ++ down))

end Path

end ShaderForge
