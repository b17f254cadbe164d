import ShaderForge.Text.Numeral
import ShaderForge.Text.Utf8

/-!
# ShaderForge.Yaml.Tag

What an unquoted scalar means: nothing, a truth value, a number, a date, or its own text.

* `Yaml.Scalar`    — the meaning of a scalar.
* `Yaml.meaning`   — the meaning of an unquoted text.
* `Yaml.needsQuotes` — texts that would mean something else without quotes, here or to older readers.
-/

namespace ShaderForge

namespace Yaml

inductive Scalar where
  | null
  | flag (b : Bool)
  | int (i : Int)
  | float (x : Float)
  | timestamp
  | text (s : Bytes)

def Scalar.tag : Scalar → Bytes
  | .null => "!!null"
  | .flag _ => "!!bool"
  | .int _ => "!!int"
  | .float _ => "!!float"
  | .timestamp => "!!timestamp"
  | .text _ => "!!str"

def infinity : Float := 1.0 / 0.0

def isOneOf (words : List String) (s : Bytes) : Bool := words.any fun w => utf8 w = s

def word? (s : Bytes) : Option Scalar :=
  if isOneOf ["", "~", "null", "Null", "NULL"] s then some .null
  else if isOneOf ["true", "True", "TRUE"] s then some (.flag true)
  else if isOneOf ["false", "False", "FALSE"] s then some (.flag false)
  else if isOneOf [".nan", ".NaN", ".NAN"] s then some (.float (0.0 / 0.0))
  else if isOneOf [".inf", ".Inf", ".INF", "+.inf", "+.Inf", "+.INF"] s then some (.float infinity)
  else if isOneOf ["-.inf", "-.Inf", "-.INF"] s then some (.float (-infinity))
  else none

def unsigned (s : Bytes) : Bytes :=
  match s with
  | 0x2B :: s => s
  | 0x2D :: s => s
  | s => s

structure Decimal where
  negative : Bool
  whole : Bytes
  fraction : Bytes
  exponent : Int

namespace Decimal

/-- The exponent at the front of a text, which must be all of it. -/
def exponent? (s : Bytes) : Option Int :=
  match s with
  | [] => some 0
  | e :: rest =>
    if Bytes.lowerAscii e ≠ octet 'e' then none
    else (Bytes.natOf? (unsigned rest)).map fun n => if rest.head? = some (octet '-') then -(n : Int) else n

/-- Reads `[+-]digits[.digits][e[+-]digits]`, with digits on at least one side of the point. -/
def read? (s : Bytes) : Option Decimal := do
  let body := unsigned s
  let whole := body.takeWhile Bytes.isDigit
  let rest := body.dropWhile Bytes.isDigit
  let (fraction, rest) := match rest with
    | 0x2E :: rest => (rest.takeWhile Bytes.isDigit, rest.dropWhile Bytes.isDigit)
    | rest => (([] : Bytes), rest)
  if whole = [] && fraction = [] then none
  let exponent ← exponent? rest
  return ⟨s.head? = some (octet '-'), whole, fraction, exponent⟩

def exponentBound : Nat := 100000

def toFloat? (d : Decimal) : Option Float :=
  let digits := Bytes.digitsValue (d.whole ++ d.fraction)
  let exponent := d.exponent - d.fraction.length
  let magnitude :=
    if digits = 0 then 0.0
    else if exponent < 0 then
      if (exponentBound : Int) < -exponent then 0.0 else Float.ofScientific digits true exponent.natAbs
    else if (exponentBound : Int) < exponent then infinity
    else Float.ofScientific digits false exponent.natAbs
  if magnitude.isInf then none else some (if d.negative then -magnitude else magnitude)

end Decimal

/-- A number of the form `.digits`, in which underscores may group the digits. -/
def pointNumber? (s : Bytes) : Option Float :=
  if Numeral.underscore ∈ s && !Numeral.underscoresOk s then none
  else (Decimal.read? (s.filter (· ≠ Numeral.underscore))).bind Decimal.toFloat?

def decimal? (s : Bytes) : Option Float := (Decimal.read? s).bind Decimal.toFloat?

def shortNumber? (s : Bytes) : Option (Nat × Bytes) :=
  match s with
  | a :: b :: rest =>
    if !Bytes.isDigit a then none
    else if Bytes.isDigit b then some (Bytes.digitsValue [a, b], rest)
    else some (Bytes.digitsValue [a], b :: rest)
  | [a] => if Bytes.isDigit a then some (Bytes.digitsValue [a], []) else none
  | [] => none

def isLeapYear (y : Nat) : Bool := y % 4 = 0 && (y % 100 ≠ 0 || y % 400 = 0)

def daysIn (year month : Nat) : Nat :=
  if month = 2 then (if isLeapYear year then 29 else 28)
  else if month ∈ [4, 6, 9, 11] then 30
  else 31

def date? (s : Bytes) : Option Bytes := do
  let year := s.takeWhile Bytes.isDigit
  if year.length ≠ 4 then none
  let rest ← Bytes.after? "-" (s.drop 4)
  let (month, rest) ← shortNumber? rest
  if month < 1 || 12 < month then none
  let rest ← Bytes.after? "-" rest
  let (day, rest) ← shortNumber? rest
  if day < 1 || daysIn (Bytes.digitsValue year) month < day then none
  return rest

def timeOfDay? (s : Bytes) : Option Bytes := do
  let (hour, rest) ← shortNumber? s
  if 23 < hour then none
  let rest ← Bytes.after? ":" rest
  let (minute, rest) ← shortNumber? rest
  if 59 < minute then none
  let rest ← Bytes.after? ":" rest
  let (second, rest) ← shortNumber? rest
  if 59 < second then none
  match rest with
  | point :: d :: more =>
    if (point = octet '.' || point = octet ',') && Bytes.isDigit d then some (more.dropWhile Bytes.isDigit)
    else some rest
  | _ => some rest

def isZone (s : Bytes) : Bool :=
  match s with
  | [0x5A] => true
  | [sign, a, b, 0x3A, c, d] =>
    (sign = octet '+' || sign = octet '-') && [a, b, c, d].all Bytes.isDigit &&
      Bytes.digitsValue [a, b] ≤ 24 && Bytes.digitsValue [c, d] ≤ 60
  | _ => false

/-- Dates, alone or with a time of day: behind `T` with a zone, behind a blank without one. -/
def isTimestamp (s : Bytes) : Bool :=
  match date? s with
  | none => false
  | some [] => true
  | some (mark :: rest) =>
    match timeOfDay? rest with
    | none => false
    | some zone =>
      if mark = Bytes.space then zone = []
      else (mark = octet 'T' || mark = octet 't') && isZone zone

/-- Integers, with underscores anywhere; a base mark may stand before the sign. -/
def integer? (s : Bytes) : Option Int :=
  match Numeral.signed s, Numeral.unsigned s with
  | .ok i, _ => some i
  | _, .ok n => some n
  | _, _ => none

/-- Integers behind a base mark, read in that base with a sign of their own. -/
def marked? (mark : Bytes) (base : Nat) (s : Bytes) : Option Int :=
  match Bytes.after? mark s with
  | some rest =>
    match Numeral.signedIn base rest, Numeral.unsignedIn base rest with
    | .ok i, _ => some i
    | _, .ok n => some n
    | _, _ => none
  | none =>
    match Bytes.after? (octet '-' :: mark) s with
    | some rest => (Numeral.signedIn base (octet '-' :: rest)).toOption
    | none => none

def numberMeaning (s : Bytes) : Scalar :=
  if isTimestamp s then .timestamp
  else
    let plain := s.filter (· ≠ Numeral.underscore)
    match integer? plain with
    | some i => .int i
    | none =>
      match decimal? plain with
      | some x => .float x
      | none =>
        match (marked? "0b" 2 plain).orElse (fun _ => marked? "0o" 8 plain) with
        | some i => .int i
        | none => .text s

def meaning (s : Bytes) : Scalar :=
  match s with
  | [] => .null
  | b :: _ =>
    if Bytes.isDigit b || b = octet '+' || b = octet '-' then (word? s).getD (numberMeaning s)
    else if b = octet '.' then
      (word? s).getD (match pointNumber? s with
        | some x => .float x
        | none => .text s)
    else (word? s).getD (.text s)

def isText : Scalar → Bool
  | .text _ => true
  | _ => false

def isOldFlag (s : Bytes) : Bool :=
  isOneOf ["y", "Y", "yes", "Yes", "YES", "on", "On", "ON", "n", "N", "no", "No", "NO", "off", "Off", "OFF"] s

def isSixtieth (s : Bytes) : Bool :=
  match s with
  | [a] => Bytes.isDigit a
  | [a, b] => Bytes.isDigit a && a ≤ octet '5' && Bytes.isDigit b
  | _ => false

def isGrouped (b : UInt8) : Bool := Bytes.isDigit b || b = Numeral.underscore

/-- Numbers in base sixty, such as `1:30` and `1:30.5`, which older readers take for numbers. -/
def isSexagesimal (s : Bytes) : Bool :=
  match Bytes.split (octet ':') (unsigned s) with
  | first :: second :: more =>
    let places := (second :: more).reverse
    let last := (places.headD []).takeWhile (· ≠ octet '.')
    let tail := ((places.headD []).dropWhile (· ≠ octet '.')).drop 1
    (match first with
      | [] => false
      | b :: rest => Bytes.isDigit b && rest.all isGrouped) &&
    places.tail.all isSixtieth && isSixtieth last && tail.all isGrouped
  | _ => false

/-- Would the text mean something else without quotes, here or to older readers? -/
def needsQuotes (s : Bytes) : Bool := !isText (meaning s) || isOldFlag s || isSexagesimal s

end Yaml

end ShaderForge
