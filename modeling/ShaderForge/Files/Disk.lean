import ShaderForge.Files.Error
import ShaderForge.Order

/-!
# ShaderForge.Files.Disk

A file tree as a value: files, directories and symbolic links under one root, with a working directory and a
clock that stamps every write.

* `Disk.find`     — what a path leads to, through links.
* `Disk.stat`, `Disk.contents`, `Disk.list`, `Disk.readDir` — looking.
* `Disk.store`, `Disk.mkdir`, `Disk.rename`, `Disk.remove`, … — changing. A single change happens wholly or
  not at all; `Disk.mkdirAll` makes several.
-/

namespace ShaderForge

inductive Node where
  | file (content : Bytes) (modified : Int)
  | directory
  | link (target : Path)
  deriving DecidableEq, Repr, Inhabited

namespace Node

def isDirectory : Node → Bool
  | .directory => true
  | _ => false

def isLink : Node → Bool
  | .link _ => true
  | _ => false

def size : Node → Nat
  | .file content _ => content.length
  | _ => 0

def modified : Node → Int
  | .file _ t => t
  | _ => 0

end Node

/-- A place of the tree: components from the root down, none of them a link. -/
abbrev Place := List Bytes

/-- The file tree. The root itself is not listed. -/
structure Disk where
  nodes : List (Place × Node) := []
  cwd : Place := []
  clock : Int := 0
  deriving Repr, Inhabited

/-- Where a path leads: to a node, or to a free name in a directory. A path that ends in a slash asks for a
directory. -/
inductive Found where
  | node (place : Place) (node : Node)
  | vacant (place : Place) (asDirectory : Bool)
  deriving DecidableEq, Repr

namespace Disk

def maxName : Nat := 255

def maxPath : Nat := 4096

def maxLinks : Nat := 40

def node? (d : Disk) (place : Place) : Option Node :=
  if place = [] then some .directory else d.nodes.lookup place

/-- Follows components from a place. `links` more links may be passed; a link in last position is passed only
if `follow` is set. -/
def walk (d : Disk) (follow : Bool) (links : Nat) (place : Place) (rest : List Bytes) :
    Except FileCause Found :=
  match rest with
  | [] =>
    match d.node? place with
    | some n => .ok (.node place n)
    | none => .error .notFound
  | c :: rest =>
    match d.node? place with
    | none => .error .notFound
    | some .directory =>
      if c = [] || c = Path.dot then d.walk follow links place rest
      else if c = Path.dotDot then d.walk follow links place.dropLast rest
      else if maxName < c.length then .error .nameTooLong
      else match d.node? (place ++ [c]) with
        | none =>
          if rest.all (· = []) then .ok (.vacant (place ++ [c]) (!rest.isEmpty))
          else .error .notFound
        | some (.link target) =>
          if rest.isEmpty && !follow then .ok (.node (place ++ [c]) (.link target))
          else match links with
            | 0 => .error .tooManyLinks
            | links + 1 =>
              d.walk follow links (if Path.isAbsolute target then [] else place)
                (Path.components target ++ rest)
        | some _ => d.walk follow links (place ++ [c]) rest
    | some _ => .error .notDirectory
termination_by (links, rest.length)

def find (d : Disk) (follow : Bool) (p : Path) : Except FileCause Found :=
  if p.contains [0] then .error .invalidArgument
  else if p = [] then .error .notFound
  else if maxPath ≤ p.length then .error .nameTooLong
  else d.walk follow maxLinks (if Path.isAbsolute p then [] else d.cwd) (Path.components p)

def inspect (d : Disk) (follow : Bool) (p : Path) : Except FileCause (Place × Node) :=
  match d.find follow p with
  | .ok (.node place n) => .ok (place, n)
  | .ok (.vacant _ _) => .error .notFound
  | .error c => .error c

def stat (d : Disk) (p : Path) : Except FileError Node :=
  match d.inspect true p with
  | .ok (_, n) => .ok n
  | .error c => .error ⟨"stat", p, c⟩

def lstat (d : Disk) (p : Path) : Except FileError Node :=
  match d.inspect false p with
  | .ok (_, n) => .ok n
  | .error c => .error ⟨"lstat", p, c⟩

def isPresent (d : Disk) (p : Path) : Bool :=
  match d.stat p with
  | .ok _ => true
  | .error _ => false

def contents (d : Disk) (p : Path) : Except FileError Bytes :=
  match d.inspect true p with
  | .ok (_, .file content _) => .ok content
  | .ok (_, _) => .error ⟨"read", p, .isDirectory⟩
  | .error c => .error ⟨"open", p, c⟩

def list (d : Disk) (place : Place) : List (Bytes × Node) :=
  sortBy (fun a b => Bytes.precedes a.1 b.1) (d.nodes.filterMap fun (p, n) =>
    match p.getLast? with
    | some name => if p.dropLast = place then some (name, n) else none
    | none => none)

def readDir (d : Disk) (p : Path) : Except FileError (List (Bytes × Node)) :=
  match d.inspect true p with
  | .ok (place, .directory) => .ok (d.list place)
  | .ok _ => .error ⟨"readdirent", p, .notDirectory⟩
  | .error c => .error ⟨"open", p, c⟩

def cwdPath (d : Disk) : Path := Path.ofComponents true d.cwd

/-! ## Changes -/

def put (d : Disk) (place : Place) (n : Node) : Disk :=
  if d.nodes.any (·.1 = place) then
    { d with nodes := d.nodes.map fun e => if e.1 = place then (place, n) else e }
  else { d with nodes := d.nodes ++ [(place, n)] }

def erase (d : Disk) (place : Place) : Disk :=
  { d with nodes := d.nodes.filter fun e => !(place.isPrefixOf e.1) }

def putFile (d : Disk) (place : Place) (content : Bytes) : Disk :=
  { d.put place (.file content d.clock) with clock := d.clock + 1 }

def store (d : Disk) (p : Path) (content : Bytes) : Except FileError Disk :=
  match d.find true p with
  | .ok (.node place (.file _ _)) => .ok (d.putFile place content)
  | .ok (.vacant place false) => .ok (d.putFile place content)
  | .ok _ => .error ⟨"open", p, .isDirectory⟩
  | .error c => .error ⟨"open", p, c⟩

def append (d : Disk) (p : Path) (content : Bytes) : Except FileError Disk :=
  match d.find true p with
  | .ok (.node place (.file old _)) => .ok (d.putFile place (old ++ content))
  | .ok (.vacant place false) => .ok (d.putFile place content)
  | .ok _ => .error ⟨"open", p, .isDirectory⟩
  | .error c => .error ⟨"open", p, c⟩

def setModified (d : Disk) (p : Path) (time : Int) : Except FileError Disk :=
  match d.inspect true p with
  | .ok (place, .file content _) => .ok (d.put place (.file content time))
  | .ok _ => .ok d
  | .error c => .error ⟨"chtimes", p, c⟩

def create (d : Disk) (p : Path) : Except FileError Disk :=
  match d.find false p with
  | .ok (.vacant place false) => .ok (d.putFile place [])
  | .ok (.vacant _ true) => .error ⟨"open", p, .isDirectory⟩
  | .ok (.node _ _) => .error ⟨"open", p, .exists⟩
  | .error c => .error ⟨"open", p, c⟩

def mkdir (d : Disk) (p : Path) : Except FileError Disk :=
  match d.find false p with
  | .ok (.vacant place _) => .ok (d.put place .directory)
  | .ok (.node _ _) => .error ⟨"mkdir", p, .exists⟩
  | .error c => .error ⟨"mkdir", p, c⟩

/-- The parts of a path that lead up to the slash before each component, the longest last; `passed` is the part
already passed, in reverse. -/
def parentsFrom (passed : Bytes) : Bytes → List Path
  | [] => []
  | b :: s =>
    let more := parentsFrom (b :: passed) s
    match passed with
    | Bytes.slash :: front =>
      if b ≠ Bytes.slash && front ≠ [] then front.reverse :: more else more
    | _ => more

/-- Makes the directories of a list that are not there, the last one first. -/
def ensure : List Path → Disk → Disk × Except FileError Unit
  | [], d => (d, .ok ())
  | p :: outer, d =>
    match d.stat p with
    | .ok .directory => (d, .ok ())
    | .ok _ => (d, .error ⟨"mkdir", p, .notDirectory⟩)
    | .error _ =>
      match ensure outer d with
      | (d, .error e) => (d, .error e)
      | (d, .ok ()) =>
        match d.mkdir p with
        | .ok d => (d, .ok ())
        | .error e =>
          match d.lstat p with
          | .ok .directory => (d, .ok ())
          | _ => (d, .error e)

def mkdirAll (d : Disk) (p : Path) : Disk × Except FileError Unit :=
  ensure (p :: (parentsFrom [] p).reverse) d

def remove (d : Disk) (p : Path) : Except FileError Disk :=
  match d.inspect false p with
  | .ok (place, .directory) =>
    if (d.list place).isEmpty then .ok (d.erase place) else .error ⟨"remove", p, .notEmpty⟩
  | .ok (place, _) => .ok (d.erase place)
  | .error c => .error ⟨"remove", p, c⟩

def removeAll (d : Disk) (p : Path) : Disk :=
  match d.inspect false p with
  | .ok (place, _) => d.erase place
  | .error _ => d

def rename (d : Disk) (old new : Path) : Except FileError Disk :=
  let fail (c : FileCause) : Except FileError Disk := .error ⟨"rename", old ++ " " ++ new, c⟩
  match d.inspect false old, d.find false new with
  | .error c, _ => fail c
  | .ok _, .ok (.node _ .directory) => fail .exists
  | .ok (source, n), .ok (.node place _) => .ok ((d.erase source).put place n)
  | .ok (source, n), .ok (.vacant place _) => .ok ((d.erase source).put place n)
  | .ok _, .error c => fail c

/-! ## Fresh names -/

def firstNumeral : Nat := 1000000000

/-- A name pattern as what stands before and behind its last asterisk; without one the numeral comes last. -/
def patternParts (pattern : Bytes) : Bytes × Bytes :=
  if octet '*' ∈ pattern then
    let back := (pattern.reverse.takeWhile (· ≠ octet '*')).reverse
    (pattern.take (pattern.length - back.length - 1), back)
  else (pattern, [])

def inside (dir name : Path) : Path :=
  if dir.getLast? = some Bytes.slash then dir ++ name else dir ++ [Bytes.slash] ++ name

/-- Tries numerals from `n` on until `make` does not fail because the name is taken. -/
def tryNumerals (name : Nat → Path) (make : Path → Except FileError Disk) :
    (tries n : Nat) → Except FileError (Path × Disk)
  | 0, n => (make (name n)).map fun d => (name n, d)
  | tries + 1, n =>
    match make (name n) with
    | .ok d => .ok (name n, d)
    | .error e => if e.cause = .exists then tryNumerals name make tries (n + 1) else .error e

def mkdirTemp (d : Disk) (dir : Path) (pattern : Bytes) : Except FileError (Path × Disk) :=
  if pattern.contains [Bytes.slash] then .error ⟨"mkdirtemp", pattern, .patternHasSeparator⟩
  else
    let (front, back) := patternParts pattern
    let name (n : Nat) : Path := inside dir (front ++ Bytes.ofNat n ++ back)
    match tryNumerals name d.mkdir d.nodes.length firstNumeral with
    | .ok made => .ok made
    | .error e =>
      if e.cause = .notFound then
        match d.stat dir with
        | .error e' => if e'.cause = .notFound then .error e' else .error e
        | .ok _ => .error e
      else .error e

def createTemp (d : Disk) (dir : Path) (pattern : Bytes) : Except FileError (Path × Disk) :=
  if pattern.contains [Bytes.slash] then .error ⟨"createtemp", pattern, .patternHasSeparator⟩
  else
    let (front, back) := patternParts pattern
    tryNumerals (fun n => inside dir (front ++ Bytes.ofNat n ++ back)) d.create
      d.nodes.length firstNumeral

end Disk

end ShaderForge
