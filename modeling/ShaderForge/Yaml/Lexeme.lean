import ShaderForge.Yaml.Cursor

/-!
# ShaderForge.Yaml.Lexeme

The texts inside a document that take more than one character: scalars in their four styles, names, tags and
directives. Each reader starts at a cursor and gives what it read and the cursor behind it.

* `plainScalar`, `quotedScalar`, `blockScalar`.
* `name?`, `tag?`, `directive?`.
-/

namespace ShaderForge

namespace Yaml

/-- The blanks and ends of lines between two words. Only the first end of line is kept apart: alone it stands for
one blank. -/
structure Gap where
  blanks : List Char := []
  first : Option (List Char) := none
  more : List Char := []

def Gap.text (g : Gap) : List Char :=
  match g.first with
  | none => g.blanks
  | some first =>
    if first = ['\n'] then (if g.more = [] then [' '] else g.more)
    else first ++ g.more

def Gap.addBreak (b : List Char) (g : Gap) : Gap :=
  match g.first with
  | none => { g with blanks := [], first := some b }
  | some _ => { g with more := g.more ++ b }

/-- Reads a gap. A tab left of column `margin` on a continuation line is refused. -/
def readGap (margin : Nat) (g : Gap) (c : Cursor) : Option (Gap × Cursor) :=
  match c.rest with
  | [] => some (g, c)
  | x :: _ =>
    if isGap x then
      if g.first.isSome && c.column < margin && x = '\t' then none
      else
        let g := if g.first.isSome then g else { g with blanks := g.blanks ++ [x] }
        let next := c.advance 1
        if next.remaining < c.remaining then readGap margin g next else none
    else match c.newline? with
      | none => some (g, c)
      | some (b, next) =>
        if next.remaining < c.remaining then readGap margin (g.addBreak b) next else none
termination_by c.remaining

def endsInFlow (c : Char) : Bool := [',', '?', '[', ']', '\x7b', '\x7d'].contains c

def plainWord (inFlow : Bool) : List Char → List Char
  | [] => []
  | c :: rest =>
    if isGap c || isBreak c || (c = ':' && stops rest) || (inFlow && endsInFlow c) then []
    else c :: plainWord inFlow rest

/-- A scalar that was read, whether a line ended behind it, and the place behind it. -/
structure ScalarRead where
  text : List Char
  lineEnded : Bool
  after : Cursor

/-- The words of an unquoted scalar. Lines that start left of `margin` do not belong to it, unless it stands in
brackets. -/
def plainFrom (inFlow : Bool) (margin : Nat) (text : List Char) (gap : Gap) (c : Cursor) : Option ScalarRead :=
  if c.atDocumentMark || c.rest.head? = some '#' then some ⟨text, gap.first.isSome, c⟩
  else
    let word := plainWord inFlow c.rest
    let (text, gap) := if word = [] then (text, gap) else (text ++ gap.text ++ word, {})
    let next := c.advance word.length
    match next.rest with
    | [] => some ⟨text, gap.first.isSome, next⟩
    | x :: _ =>
      if !(isGap x || isBreak x) then some ⟨text, gap.first.isSome, next⟩
      else match readGap margin gap next with
        | none => none
        | some (gap, behind) =>
          if !inFlow && behind.column < margin then some ⟨text, gap.first.isSome, behind⟩
          else if behind.remaining < c.remaining then plainFrom inFlow margin text gap behind
          else none
termination_by c.remaining

def plainScalar (inFlow : Bool) (margin : Nat) (c : Cursor) : Option ScalarRead :=
  plainFrom inFlow margin [] {} c

def hexNumber? (digits : List Char) : Option Nat :=
  digits.foldlM (fun n d => (Bytes.hexValue? (octet d)).bind fun v =>
    if d.toNat < 0x80 then some (16 * n + v) else none) 0

def numbered? (width : Nat) (s : List Char) : Option (Char × List Char) :=
  if s.length < width then none
  else do
    let n ← hexNumber? (s.take width)
    if (0xD800 ≤ n && n ≤ 0xDFFF) || 0x10FFFF < n then none
    else some (Char.ofNat n, s.drop width)

def escaped? : List Char → Option (Char × List Char)
  | [] => none
  | c :: rest =>
    match c with
    | '0' => some ('\x00', rest)
    | 'a' => some ('\x07', rest)
    | 'b' => some ('\x08', rest)
    | 't' => some ('\t', rest)
    | '\t' => some ('\t', rest)
    | 'n' => some ('\n', rest)
    | 'v' => some ('\x0b', rest)
    | 'f' => some ('\x0c', rest)
    | 'r' => some ('\r', rest)
    | 'e' => some ('\x1b', rest)
    | ' ' => some (' ', rest)
    | '"' => some ('"', rest)
    | '\x27' => some ('\x27', rest)
    | '\\' => some ('\\', rest)
    | 'N' => some (Char.ofNat 0x85, rest)
    | '_' => some (Char.ofNat 0xA0, rest)
    | 'L' => some (Char.ofNat 0x2028, rest)
    | 'P' => some (Char.ofNat 0x2029, rest)
    | 'x' => numbered? 2 rest
    | 'u' => numbered? 4 rest
    | 'U' => numbered? 8 rest
    | _ => none

/-- The word of a scalar in single quotes, and what follows it: a blank, an end of line, or the closing quote. -/
def singleWord : List Char → List Char × List Char
  | [] => ([], [])
  | '\x27' :: '\x27' :: rest =>
    let (word, behind) := singleWord rest
    ('\x27' :: word, behind)
  | c :: rest =>
    if c = '\x27' || isGap c || isBreak c then ([], c :: rest)
    else
      let (word, behind) := singleWord rest
      (c :: word, behind)

/-- The word of a scalar in double quotes, and what follows it: a blank, an end of line, an escaped end of line,
or the closing quote. -/
def doubleWord (s : List Char) : Option (List Char × List Char) :=
  match s with
  | [] => some ([], [])
  | '\\' :: rest =>
    if rest.head?.any isBreak then some ([], s)
    else match escaped? rest with
      | none => none
      | some (c, behind) =>
        if behind.length ≤ rest.length then
          match doubleWord behind with
          | none => none
          | some (word, behind) => some (c :: word, behind)
        else none
  | c :: rest =>
    if c = '"' || isGap c || isBreak c then some ([], s)
    else match doubleWord rest with
      | none => none
      | some (word, behind) => some (c :: word, behind)
termination_by s.length

def quotedFrom (single : Bool) (text : List Char) (c : Cursor) : Option ScalarRead :=
  if c.atDocumentMark || c.rest = [] then none
  else
    match (if single then some (singleWord c.rest) else doubleWord c.rest) with
    | none => none
    | some (word, behind) =>
      let next := c.advance (c.rest.length - behind.length)
      let text := text ++ word
      if behind.head? = some (if single then '\x27' else '"') then some ⟨text, false, next.advance 1⟩
      else
        -- an escaped end of line opens a gap that stands for nothing itself
        let start : Option (Gap × Cursor) :=
          if behind.head? = some '\\' then
            match (next.advance 1).newline? with
            | some (_, next) => some ({ first := some [] }, next)
            | none => none
          else some ({}, next)
        match start with
        | none => none
        | some (gap, next) =>
          match readGap 0 gap next with
          | none => none
          | some (gap, next) =>
            if next.remaining < c.remaining then quotedFrom single (text ++ gap.text) next
            else none
termination_by c.remaining

def quotedScalar (single : Bool) (c : Cursor) : Option ScalarRead := quotedFrom single [] (c.advance 1)

inductive Chomp where
  | strip
  | clip
  | keep
  deriving DecidableEq, Repr

/-- The header of a block: how its end is cut and how far it is indented. -/
def blockHeader? (s : List Char) : Option (Chomp × Option Nat × List Char) :=
  let chomp : Char → Option Chomp := fun c => if c = '+' then some .keep else if c = '-' then some .strip else none
  let digit : Char → Option Nat := fun c => if c.isDigit then some (c.toNat - 0x30) else none
  let found : Chomp × Option Nat × List Char :=
    match s with
    | [] => (.clip, none, [])
    | a :: rest =>
      match chomp a, digit a with
      | some k, _ =>
        match rest with
        | b :: rest' => match digit b with
          | some n => (k, some n, rest')
          | none => (k, none, rest)
        | [] => (k, none, [])
      | none, some n =>
        match rest with
        | b :: rest' => match chomp b with
          | some k => (k, some n, rest')
          | none => (.clip, some n, rest)
        | [] => (.clip, some n, [])
      | none, none => (.clip, none, s)
  if found.2.1 = some 0 then none else some found

/-- The empty lines of a block from here on. With no indentation given, the deepest of them is found too. -/
def blockBreaks (indent : Option Nat) (deepest : Nat) (breaks : List Char) (c : Cursor) :
    Option (Nat × List Char × Cursor) :=
  let room := match indent with
    | none => c.remaining
    | some n => n - c.column
  let spaces := ((c.rest.take room).takeWhile (· = ' ')).length
  let next := c.advance spaces
  let deepest := max deepest next.column
  let left := match indent with
    | none => true
    | some n => decide (next.column < n)
  if left && next.rest.head? = some '\t' then none
  else match next.newline? with
    | none => some (deepest, breaks, next)
    | some (b, behind) =>
      if behind.remaining < c.remaining then blockBreaks indent deepest (breaks ++ b) behind
      else none
termination_by c.remaining

/-- The text of a block so far: what is settled, the end of its last line, and the empty lines behind that. -/
structure BlockText where
  text : List Char := []
  lineEnd : List Char := []
  breaks : List Char := []
  wasIndented : Bool := false

/-- Adds a line. In a folded block the end of the line before becomes a blank, unless one of the two lines starts
with a blank or empty lines stand between. -/
def BlockText.addLine (literal : Bool) (line lineEnd : List Char) (b : BlockText) : BlockText :=
  let indented := line.head?.any isGap
  let joint :=
    if !literal && !b.wasIndented && !indented && b.lineEnd.head? = some '\n' then
      if b.breaks = [] then [' '] else []
    else b.lineEnd
  { text := b.text ++ joint ++ b.breaks ++ line, lineEnd := lineEnd, breaks := [], wasIndented := indented }

def blockLines (literal : Bool) (indent : Nat) (b : BlockText) (c : Cursor) : Option (BlockText × Cursor) :=
  if c.column ≠ indent || c.rest = [] then some (b, c)
  else
    let line := c.rest.takeWhile fun x => !isBreak x
    let atEnd := c.advance line.length
    let (lineEnd, next) := match atEnd.newline? with
      | some (lineEnd, next) => (lineEnd, next)
      | none => ([], atEnd)
    match blockBreaks (some indent) 0 [] next with
    | none => none
    | some (_, breaks, next) =>
      let b := { b.addLine literal line lineEnd with breaks := breaks }
      if next.remaining < c.remaining then blockLines literal indent b next
      else some (b, next)
termination_by c.remaining

/-- A block scalar, from its indicator on, below a collection that is indented by `parent`. -/
def blockScalar (literal : Bool) (parent : Option Nat) (c : Cursor) : Option ScalarRead := do
  let c := c.advance 1
  let (chomp, increment, rest) ← blockHeader? c.rest
  let c := (c.advance (c.rest.length - rest.length)).skipWhile isGap
  let c := if c.rest.head? = some '#' then c.skipLine else c
  let c ← match c.newline? with
    | some (_, next) => some next
    | none => if c.rest = [] then some c else none
  let given := increment.map fun n => parent.getD 0 + n
  let (deepest, breaks, c) ← blockBreaks given 0 [] c
  let least := match parent with
    | none => 1
    | some n => n + 1
  let indent := given.getD (max deepest least)
  let (b, c) ← blockLines literal indent { breaks := breaks } c
  let tail := match chomp with
    | .strip => []
    | .clip => b.lineEnd
    | .keep => b.lineEnd ++ b.breaks
  return ⟨b.text ++ tail, true, c⟩

def name? (c : Cursor) : Option (List Char × Cursor) :=
  let c := c.advance 1
  let name := c.rest.takeWhile isNameChar
  let rest := c.rest.drop name.length
  if name ≠ [] && (stops rest || rest.head?.any fun x => ['?', ':', ',', ']', '\x7d', '%', '@', Char.ofNat 0x60].contains x) then
    some (name, c.advance name.length)
  else none

def isTagChar (c : Char) : Bool :=
  isNameChar c ||
    [';', '/', '?', ':', '@', '&', '=', '+', '$', '.', '!', '~', '*', '\x27', '(', ')', ',', '[', ']'].contains c

/-- The text of a tag, with `%XX` escapes read; they stand for octets. -/
def tagText : (skip : Nat) → List Char → Option (Bytes × List Char)
  | _, [] => some ([], [])
  | skip + 1, _ :: rest => tagText skip rest
  | 0, c :: rest =>
    if c = '%' then
      match hexNumber? (rest.take 2) with
      | some n =>
        if rest.length < 2 then none
        else (tagText 2 rest).map fun (text, behind) => (UInt8.ofNat n :: text, behind)
      | none => none
    else if isTagChar c then (tagText 0 rest).map fun (text, behind) => (Utf8.encode c ++ text, behind)
    else some ([], c :: rest)

def ofChars (s : List Char) : Bytes := s.flatMap Utf8.encode

/-- A tag: its handle, which a document may give a meaning, and its suffix. -/
def tag? (c : Cursor) : Option ((Bytes × Bytes) × Cursor) := do
  let ((handle, suffix), rest) ← show Option ((Bytes × Bytes) × List Char) from
    match c.rest.drop 1 with
    | '<' :: rest => do
      let (suffix, rest) ← tagText 0 rest
      if suffix = [] then none
      match rest with
      | '>' :: rest => some (([], suffix), rest)
      | _ => none
    | rest => do
      let word := rest.takeWhile isNameChar
      match rest.drop word.length with
      | '!' :: rest =>
        let (suffix, rest) ← tagText 0 rest
        if suffix = [] then none
        some ((octet '!' :: ofChars word ++ [octet '!'], suffix), rest)
      | _ =>
        let (suffix, rest) ← tagText 0 rest
        if suffix = [] then some (([], utf8 "!"), rest) else some ((utf8 "!", suffix), rest)
  if stops rest then some ((handle, suffix), c.advance (c.rest.length - rest.length)) else none

inductive Directive where
  | version (major minor : Nat)
  | handle (handle meaning : Bytes)
  deriving DecidableEq, Repr

def digitRun (s : List Char) : List Char := s.takeWhile Char.isDigit

def version? (s : List Char) : Option (Directive × List Char) := do
  let major := digitRun s
  let rest := s.drop major.length
  match rest with
  | '.' :: rest =>
    let minor := digitRun rest
    if major = [] || minor = [] || 9 < major.length || 9 < minor.length then none
    some (.version (Bytes.digitsValue (ofChars major)) (Bytes.digitsValue (ofChars minor)), rest.drop minor.length)
  | _ => none

def handle? (s : List Char) : Option (Directive × List Char) := do
  match s with
  | '!' :: rest =>
    let word := rest.takeWhile isNameChar
    let rest := rest.drop word.length
    let (handle, rest) ← match rest with
      | '!' :: rest => some (octet '!' :: ofChars word ++ [octet '!'], rest)
      | rest => if word = [] then some (utf8 "!", rest) else none
    if !(rest.head?.any isGap) then none
    let (meaning, rest) ← tagText 0 (rest.dropWhile isGap)
    if meaning = [] || !stops rest then none
    some (.handle handle meaning, rest)
  | _ => none

def directive? (c : Cursor) : Option (Directive × Cursor) := do
  let start := c.rest.drop 1
  let word := start.takeWhile isNameChar
  let rest := start.drop word.length
  if word = [] || !stops rest then none
  let rest := rest.dropWhile isGap
  let (found, rest) ←
    if word = "YAML".toList then version? rest
    else if word = "TAG".toList then handle? rest
    else none
  let c := (c.advance (c.rest.length - rest.length)).skipWhile isGap
  let c := if c.rest.head? = some '#' then c.skipLine else c
  match c.newline? with
  | some (_, next) => some (found, next)
  | none => if c.rest = [] then some (found, c) else none

end Yaml

end ShaderForge
