import ShaderForge.Text.Bytes

/-!
# ShaderForge.Text.Base64

Octets written with sixty-four printable characters, six bits each, and `=` as filling.

* `Base64.encode`, `Base64.decode?`.
-/

namespace ShaderForge

namespace Base64

def alphabet : Bytes := utf8 "ABCDEFGHIJKLMNOPQRSTUVWXYZabcdefghijklmnopqrstuvwxyz0123456789+/"

def pad : UInt8 := octet '='

def symbol (n : Nat) : UInt8 := alphabet.getD (n % 64) pad

def value? (b : UInt8) : Option Nat :=
  let i := alphabet.idxOf b
  if i < 64 then some i else none

def encode : Bytes → Bytes
  | [] => []
  | [a] => let n := a.toNat * 16; [symbol (n / 64), symbol n, pad, pad]
  | [a, b] => let n := (a.toNat * 256 + b.toNat) * 4; [symbol (n / 4096), symbol (n / 64), symbol n, pad]
  | a :: b :: c :: rest =>
    let n := (a.toNat * 256 + b.toNat) * 256 + c.toNat
    [symbol (n / 262144), symbol (n / 4096), symbol (n / 64), symbol n] ++ encode rest

def decodeGroups : Bytes → Option Bytes
  | [] => some []
  | [a, b, 0x3D, 0x3D] => do
    let n := (← value? a) * 64 + (← value? b)
    some [UInt8.ofNat (n / 16)]
  | [a, b, c, 0x3D] => do
    let n := ((← value? a) * 64 + (← value? b)) * 64 + (← value? c)
    some [UInt8.ofNat (n / 1024), UInt8.ofNat (n / 4)]
  | a :: b :: c :: d :: rest => do
    let n := (((← value? a) * 64 + (← value? b)) * 64 + (← value? c)) * 64 + (← value? d)
    let more ← decodeGroups rest
    some ([UInt8.ofNat (n / 65536), UInt8.ofNat (n / 256), UInt8.ofNat n] ++ more)
  | _ => none

/-- Ends of lines between the characters do not count. -/
def decode? (s : Bytes) : Option Bytes := decodeGroups (s.filter fun b => b ≠ Bytes.lf && b ≠ Bytes.cr)

end Base64

end ShaderForge
