import ShaderForge.Files.Path
import ShaderForge.Ignore.PatternSyntax

/-!
# ShaderForge.Ignore.Rule

Ignore files: one rule a line, each a path pattern in which `*` stands for a part of a component and `**` for
any components. A line is turned step by step into a regular pattern; a leading `!` takes paths back in.

* `Rule.expression` — the regular pattern of a line, as text.
* `Rule.ofLine?`    — the rule of a line; comments, blank lines and lines without a well-formed pattern have none.
* `IgnoreRules.ignores` — the last rule that speaks of a path decides.
-/

namespace ShaderForge

structure Rule where
  pattern : Pattern
  negated : Bool
  deriving Repr

namespace Rule

def trimSpaces (s : Bytes) : Bytes :=
  ((s.dropWhile (· = Bytes.space)).reverse.dropWhile (· = Bytes.space)).reverse

def hasStarDot (s : Bytes) : Bool := Bytes.contains s "*."

/-- Does a component other than the first hold `*.`, where the slash before it follows neither a slash nor a
plus? -/
def namesExtensionBelow : Bytes → Bool
  | a :: b :: s =>
    (b = Bytes.slash && a ≠ Bytes.slash && a ≠ octet '+' && hasStarDot (s.takeWhile (· ≠ Bytes.lf))) ||
      namesExtensionBelow (b :: s)
  | _ => false

/-- Stands for a star of the regular pattern while the stars of the line are expanded. -/
def starMark : Bytes := utf8 "#$~"

def expandWildcards (line : Bytes) : Bytes :=
  let line := Bytes.replaceAll "." "\\." line
  let line := if Bytes.startsWith line "/**/" then line.drop 1 else line
  let line := Bytes.replaceAll "/**/" "(/|/.+/)" line
  let line := Bytes.replaceAll "**/" ("(|." ++ starMark ++ "/)") line
  let line := Bytes.replaceAll "/**" ("(|/." ++ starMark ++ ")") line
  let line := Bytes.replaceAll "\\*" ("\\" ++ starMark) line
  let line := Bytes.replaceAll "*" "([^/]*)" line
  let line := Bytes.replaceAll "?" "\\?" line
  Bytes.replaceAll starMark "*" line

/-- Ties the pattern to the start or to any directory, and lets it cover what lies below. -/
def anchorEnds (line : Bytes) : Bytes :=
  let tail : Bytes := if Bytes.endsWith line "/" then "(|.*)$" else "(|/.*)$"
  match line ++ tail with
  | Bytes.slash :: rest => "^(|/)" ++ rest
  | whole => "^(|.*/)" ++ whole

/-- The regular pattern of a line, and whether it takes paths back in. -/
def expression? (line : Bytes) : Option (Bytes × Bool) :=
  let line := (line.reverse.dropWhile (· = Bytes.cr)).reverse
  if line.head? = some (octet '#') then none
  else match trimSpaces line with
    | [] => none
    | b :: rest =>
      let negated := b = octet '!'
      let line := if negated then rest else b :: rest
      let line :=
        if line.head? = some (octet '#') || line.head? = some (octet '!') then line.drop 1 else line
      let line :=
        if namesExtensionBelow line && line.head? ≠ some Bytes.slash then Bytes.slash :: line else line
      some (anchorEnds (expandWildcards line), negated)

def ofLine? (line : Bytes) : Option Rule := do
  let (expression, negated) ← expression? line
  return ⟨← Pattern.read? expression, negated⟩

end Rule

abbrev IgnoreRules := List Rule

namespace IgnoreRules

def ofText (s : Bytes) : IgnoreRules := (Bytes.lines s).filterMap Rule.ofLine?

def ignores (rules : IgnoreRules) (path : Path) : Bool :=
  rules.foldl (fun ignored r => if r.pattern.occurs path then !r.negated else ignored) false

end IgnoreRules

end ShaderForge
