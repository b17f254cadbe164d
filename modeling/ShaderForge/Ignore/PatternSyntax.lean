import ShaderForge.Ignore.Pattern

/-!
# ShaderForge.Ignore.PatternSyntax

Reading patterns from their written form: literals, `.`, classes in brackets, groups, `|`, the repetitions
`* + ? {n} {n,} {n,m}`, anchors and escapes. A text that is not well-formed has no pattern.

* `PatternToken`, `patternTokens?` — the parts of a written pattern.
* `Pattern.read?`     — the pattern.
-/

namespace ShaderForge

namespace CharClass

def digit : CharClass := ⟨[(0x30, 0x39)], false⟩
def space : CharClass := ⟨[(0x09, 0x0A), (0x0C, 0x0D), (0x20, 0x20)], false⟩
def word : CharClass := ⟨[(0x30, 0x39), (0x41, 0x5A), (0x5F, 0x5F), (0x61, 0x7A)], false⟩

def complement (k : CharClass) : CharClass := { k with negated := !k.negated }

def ofLetter? (c : Char) : Option CharClass :=
  match c with
  | 'd' => some digit
  | 'D' => some digit.complement
  | 's' => some space
  | 'S' => some space.complement
  | 'w' => some word
  | 'W' => some word.complement
  | _ => none

def named : List (String × List (Nat × Nat)) :=
  [ ("alnum", [(0x30, 0x39), (0x41, 0x5A), (0x61, 0x7A)]),
    ("alpha", [(0x41, 0x5A), (0x61, 0x7A)]),
    ("ascii", [(0x00, 0x7F)]),
    ("blank", [(0x09, 0x09), (0x20, 0x20)]),
    ("cntrl", [(0x00, 0x1F), (0x7F, 0x7F)]),
    ("digit", [(0x30, 0x39)]),
    ("graph", [(0x21, 0x7E)]),
    ("lower", [(0x61, 0x7A)]),
    ("print", [(0x20, 0x7E)]),
    ("punct", [(0x21, 0x2F), (0x3A, 0x40), (0x5B, 0x60), (0x7B, 0x7E)]),
    ("space", [(0x09, 0x0D), (0x20, 0x20)]),
    ("upper", [(0x41, 0x5A)]),
    ("word", [(0x30, 0x39), (0x41, 0x5A), (0x5F, 0x5F), (0x61, 0x7A)]),
    ("xdigit", [(0x30, 0x39), (0x41, 0x46), (0x61, 0x66)]) ]

def ofName? (name : List Char) : Option CharClass :=
  match name with
  | '^' :: name => (named.lookup (String.ofList name)).map fun r => ⟨r, true⟩
  | name => (named.lookup (String.ofList name)).map fun r => ⟨r, false⟩

end CharClass

inductive PatternToken where
  | atom (p : Pattern)
  | group
  | close
  | bar
  | repeated (min : Nat) (max : Option Nat)

def hexChar? (c : Char) : Option Nat := if c.toNat < 0x80 then Bytes.hexValue? (octet c) else none

def isOctal (c : Char) : Bool := '0' ≤ c && c ≤ '7'

def hexCode? (digits : List Char) : Option Nat :=
  if digits.isEmpty then none
  else (digits.foldlM (fun n c => (hexChar? c).map (n * 16 + ·)) 0).filter (· ≤ 0x10FFFF)

def hexEscape? : List Char → Option (Char × List Char)
  | '\x7b' :: s => do
    let digits := s.takeWhile (· ≠ '\x7d')
    match s.drop digits.length with
    | _ :: rest => return (Char.ofNat (← hexCode? digits), rest)
    | [] => none
  | a :: b :: rest => do return (Char.ofNat (← hexCode? [a, b]), rest)
  | _ => none

/-- The character of octal digits, three at most, of which the first is given. -/
def octalEscape (first : Char) (s : List Char) : Char × List Char :=
  let more := (s.take 2).takeWhile isOctal
  (Char.ofNat ((first :: more).foldl (fun n c => n * 8 + (c.toNat - 0x30)) 0), s.drop more.length)

/-- The single character that an escape stands for, read behind its backslash. -/
def escape? : List Char → Option (Char × List Char)
  | [] => none
  | c :: rest =>
    if '1' ≤ c && c ≤ '7' then
      if (rest.head?).any isOctal then some (octalEscape c rest) else none
    else if c = '0' then some (octalEscape c rest)
    else if c = 'x' then hexEscape? rest
    else if c = 'a' then some (Char.ofNat 7, rest)
    else if c = 'f' then some (Char.ofNat 12, rest)
    else if c = 'n' then some ('\n', rest)
    else if c = 'r' then some ('\r', rest)
    else if c = 't' then some ('\t', rest)
    else if c = 'v' then some (Char.ofNat 11, rest)
    else if c.toNat < 0x80 && !c.isAlphanum then some (c, rest)
    else none

def classChar? : List Char → Option (Char × List Char)
  | [] => none
  | '\\' :: s => escape? s
  | c :: s => some (c, s)

/-- A class named inside brackets, read behind `[:`; without a closing `:]` it is none. -/
def namedClass? (s : List Char) : Option (Option (CharClass × List Char)) :=
  let rec find (name : List Char) : List Char → Option (List Char × List Char)
    | ':' :: ']' :: rest => some (name.reverse, rest)
    | c :: s => find (c :: name) s
    | [] => none
  (find [] s).map fun (name, rest) => (CharClass.ofName? name).map fun k => (k, rest)

def classItem? (s : List Char) : Option (CharClass × List Char) :=
  let single : Option (CharClass × List Char) := do
    let (lo, rest) ← classChar? s
    match rest with
    | '-' :: c :: rest' =>
      if c = ']' then return (⟨[(lo.toNat, lo.toNat)], false⟩, rest)
      else
        let (hi, rest) ← classChar? (c :: rest')
        if hi < lo then none else return (⟨[(lo.toNat, hi.toNat)], false⟩, rest)
    | _ => return (⟨[(lo.toNat, lo.toNat)], false⟩, rest)
  match s with
  | '[' :: ':' :: rest => (namedClass? rest).getD single
  | '\\' :: c :: rest =>
    match CharClass.ofLetter? c with
    | some k => some (k, rest)
    | none => single
  | _ => single

/-- Items inside brackets up to the closing one. A closing bracket in first place is an item. -/
def classItems? (first : Bool) (s : List Char) : Option (List CharClass × List Char) :=
  match s with
  | [] => none
  | c :: after =>
    if c = ']' && !first then some ([], after)
    else match classItem? s with
      | none => none
      | some (k, rest) =>
        if rest.length ≤ after.length then
          match classItems? false rest with
          | some (ks, rest) => some (k :: ks, rest)
          | none => none
        else none
termination_by s.length

def bracket? (s : List Char) : Option (CharSet × List Char) :=
  match s with
  | '^' :: s => (classItems? true s).map fun (ks, rest) => (⟨ks, true⟩, rest)
  | s => (classItems? true s).map fun (ks, rest) => (⟨ks, false⟩, rest)

/-- A count inside braces: decimal, without leading zeros. A count of many digits is only known to be too
large. -/
def count? (s : List Char) : Option (Nat × List Char) :=
  let digits := s.takeWhile Char.isDigit
  if digits.isEmpty || (digits.head? = some '0' && 1 < digits.length) then none
  else some (digits.foldl (fun n c => n * 10 + (c.toNat - 0x30)) 0, s.drop digits.length)

def bounds? (s : List Char) : Option ((Nat × Option Nat) × List Char) := do
  let (min, rest) ← count? s
  match rest with
  | '\x7d' :: rest => return ((min, some min), rest)
  | ',' :: '\x7d' :: rest => return ((min, none), rest)
  | ',' :: rest =>
    let (max, rest) ← count? rest
    match rest with
    | '\x7d' :: rest => return ((min, some max), rest)
    | _ => none
  | _ => none

def maxRepeat : Nat := 1000

def quotedText : List Char → List Char × List Char
  | [] => ([], [])
  | '\\' :: 'E' :: rest => ([], rest)
  | c :: s =>
    let (text, rest) := quotedText s
    (c :: text, rest)

def literal (c : Char) : PatternToken := .atom (.char (.single c))

def backslashToken? (s : List Char) : Option (List PatternToken × List Char) :=
  match s with
  | [] => none
  | c :: rest =>
    if c = 'A' then some ([.atom (.anchor .start)], rest)
    else if c = 'z' then some ([.atom (.anchor .stop)], rest)
    else if c = 'b' then some ([.atom (.anchor .wordEdge)], rest)
    else if c = 'B' then some ([.atom (.anchor .noWordEdge)], rest)
    else if c = 'Q' then
      let (text, rest) := quotedText rest
      some (text.map literal, rest)
    else match CharClass.ofLetter? c with
      | some k => some ([.atom (.char ⟨[k], false⟩)], rest)
      | none => (escape? s).map fun (c, rest) => ([literal c], rest)

def patternToken? (s : List Char) : Option (List PatternToken × List Char) :=
  match s with
  | [] => none
  | c :: rest =>
    match c with
    | '(' => some ([.group], rest)
    | ')' => some ([.close], rest)
    | '|' => some ([.bar], rest)
    | '^' => some ([.atom (.anchor .start)], rest)
    | '$' => some ([.atom (.anchor .stop)], rest)
    | '.' => some ([.atom (.char .anyOnLine)], rest)
    | '*' => some ([.repeated 0 none], rest)
    | '+' => some ([.repeated 1 none], rest)
    | '?' => some ([.repeated 0 (some 1)], rest)
    | '[' => (bracket? rest).map fun (set, rest) => ([.atom (.char set)], rest)
    | '\\' => backslashToken? rest
    | '\x7b' =>
      match bounds? rest with
      | none => some ([literal c], rest)
      | some ((min, max), rest) =>
        if maxRepeat < min || max.any (fun m => maxRepeat < m || m < min) then none
        else some ([.repeated min max], rest)
    | c => some ([literal c], rest)

def patternTokens? (s : List Char) : Option (List PatternToken) :=
  match s with
  | [] => some []
  | c :: s' =>
    match patternToken? (c :: s') with
    | none => none
    | some (ts, rest) =>
      if rest.length ≤ s'.length then
        match patternTokens? rest with
        | some more => some (ts ++ more)
        | none => none
      else none
termination_by s.length

namespace Pattern

def ofSeq : List Pattern → Pattern
  | [] => .empty
  | [p] => p
  | p :: ps => .seq p (ofSeq ps)

def ofAlts : List Pattern → Pattern
  | [] => .empty
  | [p] => p
  | p :: ps => .alt p (ofAlts ps)

/-- Do nested repetitions stay within `limit` copies altogether? -/
def withinRepeat : (limit : Nat) → Pattern → Bool
  | limit, .rep min max p =>
    let most := max.getD min
    if most = 0 then true
    else if limit < most then false
    else withinRepeat (limit / most) p
  | limit, .seq p q => withinRepeat limit p && withinRepeat limit q
  | limit, .alt p q => withinRepeat limit p && withinRepeat limit q
  | _, _ => true

end Pattern

/-- A group being read: alternatives that are complete, and the parts of the one being read, both in reverse. -/
structure OpenGroup where
  alternatives : List Pattern := []
  parts : List Pattern := []

namespace OpenGroup

def finish (g : OpenGroup) : Pattern :=
  .ofAlts ((Pattern.ofSeq g.parts.reverse :: g.alternatives).reverse)

end OpenGroup

/-- Reads parts into the innermost group; `outer` are the groups around it. A repetition may not follow
another one directly, and needs something to repeat. -/
def assemblePattern : (repeated : Bool) → OpenGroup → (outer : List OpenGroup) → List PatternToken → Option Pattern
  | _, g, [], [] => some g.finish
  | _, _, _ :: _, [] => none
  | _, g, outer, .atom p :: ts => assemblePattern false { g with parts := p :: g.parts } outer ts
  | _, g, outer, .group :: ts => assemblePattern false {} (g :: outer) ts
  | _, g, outer, .bar :: ts =>
    assemblePattern false
      { alternatives := Pattern.ofSeq g.parts.reverse :: g.alternatives, parts := [] } outer ts
  | _, g, around :: outer, .close :: ts =>
    assemblePattern false { around with parts := g.finish :: around.parts } outer ts
  | _, _, [], .close :: _ => none
  | repeated, g, outer, .repeated min max :: ts =>
    match repeated, g.parts with
    | false, p :: ps =>
      let q := Pattern.rep min max p
      if q.withinRepeat maxRepeat then assemblePattern true { g with parts := q :: ps } outer ts
      else none
    | _, _ => none

namespace Pattern

def read? (s : Bytes) : Option Pattern := do
  let gs := Utf8.glyphs s
  if gs.all Glyph.isScalar then assemblePattern false {} [] (← patternTokens? (gs.map Glyph.shown))
  else none

end Pattern

end ShaderForge
