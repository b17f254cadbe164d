import ShaderForge.Dict
import ShaderForge.Files.Disk
import ShaderForge.Source.Encoding

/-!
# ShaderForge.Source.Cache

Decoded sources kept by path, each with the stamp of the version it was read from. A text is used only while the
file has the same size and time of change.

* `SourceCache.get`, `SourceCache.set` — with counts of hits and misses.
* `readThrough` — a source through a cache, by calls that any monad may offer.
-/

namespace ShaderForge

structure Stamp where
  size : Int
  modified : Int
  deriving DecidableEq, Repr, Inhabited

structure SourceCache where
  entries : Dict Path (Stamp × Bytes) := Dict.empty
  hits : Nat := 0
  misses : Nat := 0

namespace SourceCache

instance : Inhabited SourceCache := ⟨{}⟩

def size (c : SourceCache) : Nat := c.entries.size

def get (c : SourceCache) (path : Path) (stamp : Stamp) : SourceCache × Option Bytes :=
  match c.entries.get? path with
  | some (kept, text) =>
    if kept = stamp then ({ c with hits := c.hits + 1 }, some text)
    else ({ c with misses := c.misses + 1 }, none)
  | none => ({ c with misses := c.misses + 1 }, none)

def set (c : SourceCache) (path : Path) (stamp : Stamp) (text : Bytes) : SourceCache :=
  { c with entries := c.entries.insert path (stamp, text) }

def stampOf (n : Node) : Stamp := ⟨n.size, n.modified⟩

end SourceCache

structure CacheCalls (m : Type → Type) where
  find : Path → Stamp → m (Option Bytes)
  keep : Path → Stamp → Bytes → m Unit

def readThrough {m : Type → Type} [Monad m] (calls : CacheCalls m) (d : Disk) (path : Path) :
    m (Except FileError Bytes) :=
  match d.stat path with
  | .error e => return .error e
  | .ok n => do
    match ← calls.find path (SourceCache.stampOf n) with
    | some text => return .ok text
    | none =>
      match d.contents path with
      | .error e => return .error e
      | .ok content =>
        let text := decodeSource content
        calls.keep path (SourceCache.stampOf n) text
        return .ok text

def readSource (d : Disk) (path : Path) : Except FileError Bytes :=
  (d.contents path).map decodeSource

end ShaderForge
