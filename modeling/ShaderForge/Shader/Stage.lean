import ShaderForge.Order
import ShaderForge.Text.Quoted

/-!
# ShaderForge.Shader.Stage

Pipeline stages. A stage kind is an octet; two codes have names, and a container may carry others.

* `StageKind`            — the code, with `StageKind.vertex` and `StageKind.pixel`.
* `StageKind.name?`, `StageKind.ofName?` — names as metadata writes them.
* `StageKind.ofEntryPoint?` — which function of a source is which stage.
-/

namespace ShaderForge

structure StageKind where
  code : UInt8
  deriving DecidableEq, Repr, Inhabited

namespace StageKind

def vertex : StageKind := ⟨0⟩
def pixel : StageKind := ⟨1⟩

def all : List StageKind := [vertex, pixel]

def name? (k : StageKind) : Option Bytes :=
  if k = vertex then some "VERTEX_SHADER"
  else if k = pixel then some "PIXEL_SHADER"
  else none

def isKnown (k : StageKind) : Bool := k.name?.isSome

def label (k : StageKind) : Bytes := k.name?.getD ("StageKind(" ++ Bytes.ofNat k.code.toNat ++ ")")

def ofName? (name : Bytes) : Option StageKind := all.find? fun k => k.name? = some name

def vertexEntryPoint : Bytes := "vs_main"

def pixelEntryPoint : Bytes := "ps_main"

def ofEntryPoint? (function : Bytes) : Option StageKind :=
  if function = vertexEntryPoint then some vertex
  else if function = pixelEntryPoint then some pixel
  else none

inductive Fault where
  | unnamed (kind : StageKind)
  | unknownName (name : Bytes)
  deriving DecidableEq, Repr

def Fault.message : Fault → Bytes
  | .unnamed k => "unknown stage kind " ++ Bytes.ofNat k.code.toNat
  | .unknownName name => "unknown stage kind " ++ name.quoted

def write (k : StageKind) : Except Fault Bytes :=
  match k.name? with
  | some name => .ok name
  | none => .error (.unnamed k)

def read (name : Bytes) : Except Fault StageKind :=
  match ofName? name with
  | some k => .ok k
  | none => .error (.unknownName name)

end StageKind

instance : Key StageKind where
  below a b := a.code < b.code
  irrefl a := by simp
  trans a b c h k := by
    simp only [decide_eq_true_eq] at h k ⊢
    exact UInt8.lt_trans h k
  total a b h k := by
    simp only [decide_eq_false_iff_not] at h k
    cases a; cases b
    exact congrArg _ (UInt8.le_antisymm (UInt8.not_lt.1 k) (UInt8.not_lt.1 h))

end ShaderForge
