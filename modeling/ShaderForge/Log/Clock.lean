import ShaderForge.Text.Bytes

/-!
# ShaderForge.Log.Clock

Times as log files show them: `2024-02-29T12:30:00.250Z`.

* `civilDate` — the date of a day counted from the start of 1970.
* `clockText` — a time counted in milliseconds from then on.
-/

namespace ShaderForge

/-- Year, month and day of the day `n` days after the start of 1970, by the Gregorian calendar. Years are counted
from March on, so that a leap day is the last of its year, in eras of 400 years. -/
def civilDate (n : Nat) : Nat × Nat × Nat :=
  let days := n + 719468
  let era := days / 146097
  let dayOfEra := days % 146097
  let yearOfEra := (dayOfEra - dayOfEra / 1460 + dayOfEra / 36524 - dayOfEra / 146096) / 365
  let dayOfYear := dayOfEra - (365 * yearOfEra + yearOfEra / 4 - yearOfEra / 100)
  let shifted := (5 * dayOfYear + 2) / 153
  let day := dayOfYear - (153 * shifted + 2) / 5 + 1
  let month := if shifted < 10 then shifted + 3 else shifted - 9
  (yearOfEra + era * 400 + (if month ≤ 2 then 1 else 0), month, day)

def padded (width n : Nat) : Bytes :=
  let digits := Bytes.ofNat n
  List.replicate (width - digits.length) (octet '0') ++ digits

def clockText (ms : Nat) : Bytes :=
  let seconds := ms / 1000
  let (year, month, day) := civilDate (seconds / 86400)
  padded 4 year ++ "-" ++ padded 2 month ++ "-" ++ padded 2 day ++ "T" ++ padded 2 (seconds / 3600 % 24) ++ ":" ++
    padded 2 (seconds / 60 % 60) ++ ":" ++ padded 2 (seconds % 60) ++ "." ++ padded 3 (ms % 1000) ++ "Z"

end ShaderForge
