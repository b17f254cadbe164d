import ShaderForge.Text.Bytes

/-!
# ShaderForge.Text.Duration

Lengths of time in nanoseconds, written with units: `1h0m0.5s`, `250ms`, `1.5µs`.

* `Duration.text`  — the written form; hours, minutes and seconds from one second on, else the largest unit that
  gives a value of at least one.
* `Duration.read?` — a signed sequence of numbers with units.
-/

namespace ShaderForge

structure Duration where
  nanoseconds : Int
  deriving DecidableEq, Repr, Inhabited

namespace Duration

def microsecond : Nat := 1000
def millisecond : Nat := 1000 * microsecond
def second : Nat := 1000 * millisecond
def minute : Nat := 60 * second
def hour : Nat := 60 * minute

def ofSeconds (n : Nat) : Duration := ⟨n * second⟩
def ofMilliseconds (n : Int) : Duration := ⟨n * millisecond⟩

def milliseconds (d : Duration) : Int := Int.tdiv d.nanoseconds millisecond

/-- The fraction `n / 10 ^ places` behind its point, without zeros at the end; empty when nothing is left. -/
def fraction (places n : Nat) : Bytes :=
  let digits := Bytes.ofNat n
  let padded := List.replicate (places - digits.length) (octet '0') ++ digits
  match (padded.reverse.dropWhile (· = octet '0')).reverse with
  | [] => []
  | ds => octet '.' :: ds

def inUnit (places n : Nat) (unit : Bytes) : Bytes :=
  let scale := Nat.pow 10 places
  Bytes.ofNat (n / scale) ++ fraction places (n % scale) ++ unit

def natText (n : Nat) : Bytes :=
  if n = 0 then "0s"
  else if n < microsecond then inUnit 0 n "ns"
  else if n < millisecond then inUnit 3 n "µs"
  else if n < second then inUnit 6 n "ms"
  else
    let seconds := inUnit 9 (n % minute) "s"
    if n < minute then seconds
    else
      let minutes := Bytes.ofNat (n / minute % 60) ++ "m" ++ seconds
      if n < hour then minutes else Bytes.ofNat (n / hour) ++ "h" ++ minutes

def text (d : Duration) : Bytes :=
  if d.nanoseconds < 0 then octet '-' :: natText d.nanoseconds.natAbs
  else natText d.nanoseconds.natAbs

def limit : Nat := 0x8000000000000000

/-- The unit at the front of the text: everything up to a digit or a point. -/
def unitLength (unit : Bytes) : Option Nat :=
  if unit = utf8 "ns" then some 1
  else if unit = utf8 "us" || unit = utf8 "µs" || unit = utf8 "μs" then some microsecond
  else if unit = utf8 "ms" then some millisecond
  else if unit = utf8 "s" then some second
  else if unit = utf8 "m" then some minute
  else if unit = utf8 "h" then some hour
  else none

def isNumberByte (b : UInt8) : Bool := Bytes.isDigit b || b = octet '.'

/-- The digits of a fraction as a number and the power of ten it is to be divided by. Digits that do not fit in
63 bits are passed over. -/
def fractionValue (digits : Bytes) : Nat × Nat :=
  let step : (Nat × Nat × Bool) → UInt8 → (Nat × Nat × Bool)
    | (f, scale, full), b =>
      let next := f * 10 + (b.toNat - 0x30)
      if full || (limit - 1) / 10 < f || limit < next then (f, scale, true)
      else (next, scale * 10, false)
  let (f, scale, _) := digits.foldl step (0, 1, false)
  (f, scale)

/-- `f / scale` units in whole nanoseconds, computed in binary floating point. -/
def fractionLength (f scale unit : Nat) : Nat :=
  (Float.ofNat f * (Float.ofNat unit / Float.ofNat scale)).toUInt64.toNat

/-- The length of `digits[.digits]unit` at the front of the text, and the rest. -/
def part? (s : Bytes) : Option (Nat × Bytes) := do
  let whole := s.takeWhile Bytes.isDigit
  let rest := s.dropWhile Bytes.isDigit
  let (digits, rest) := match rest with
    | 0x2E :: rest => (rest.takeWhile Bytes.isDigit, rest.dropWhile Bytes.isDigit)
    | _ => (([] : Bytes), rest)
  if whole = [] && digits = [] then none
  let value := Bytes.digitsValue whole
  if limit < value then none
  let unit ← unitLength (rest.takeWhile fun b => !isNumberByte b)
  let rest := rest.dropWhile fun b => !isNumberByte b
  if limit / unit < value then none
  let (f, scale) := fractionValue digits
  let length := value * unit + if 0 < f then fractionLength f scale unit else 0
  if limit < length then none
  return (length, rest)

def parts? : (fuel : Nat) → (sum : Nat) → Bytes → Option Nat
  | _, sum, [] => some sum
  | 0, _, _ => none
  | fuel + 1, sum, s => do
    let (length, rest) ← part? s
    if limit < sum + length then none else parts? fuel (sum + length) rest

/-- The length that a text without sign gives; each part takes at least one octet. -/
def natRead? (s : Bytes) : Option Nat :=
  if s = utf8 "0" then some 0
  else if s = [] then none
  else parts? s.length 0 s

def read? (s : Bytes) : Option Duration :=
  match s with
  | 0x2D :: s => (natRead? s).map fun n => ⟨-(n : Int)⟩
  | 0x2B :: s => ((natRead? s).filter (· < limit)).map fun n => ⟨n⟩
  | s => ((natRead? s).filter (· < limit)).map fun n => ⟨n⟩

end Duration

end ShaderForge
