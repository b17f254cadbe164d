import ShaderForge.Text.Bytes

/-!
# ShaderForge.Json.Value

JSON values. Members of an object keep their order and may repeat a name; a number keeps its literal.
-/

namespace ShaderForge

inductive Json where
  | null
  | bool (b : Bool)
  | number (literal : Bytes)
  | string (s : Bytes)
  | array (items : List Json)
  | object (members : List (Bytes × Json))
  deriving Inhabited

namespace Json

def ofInt (i : Int) : Json := .number (Bytes.ofInt i)

def intOfLiteral? (literal : Bytes) : Option Int :=
  let value? : Option Int :=
    match literal with
    | 0x2D :: digits => (Bytes.natOf? digits).map fun n => -(n : Int)
    | digits => (Bytes.natOf? digits).map Int.ofNat
  value?.filter fun i => -0x8000000000000000 ≤ i && i < 0x8000000000000000

end Json

end ShaderForge
