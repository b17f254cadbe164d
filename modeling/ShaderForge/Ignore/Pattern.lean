import ShaderForge.Text.Utf8

/-!
# ShaderForge.Ignore.Pattern

Regular patterns over characters, and whether one occurs in a text.

Matching follows all ways at once: from a set of positions a pattern leads to the set of positions where a match
may end. Whether a match exists does not depend on any order of trying.

* `CharSet`, `Pattern`.
* `Pattern.ends`   — where matches end that start at given positions.
* `Pattern.occurs` — does some part of the text match?
-/

namespace ShaderForge

/-- Ranges of code points, or all code points outside them. -/
structure CharClass where
  ranges : List (Nat × Nat)
  negated : Bool := false
  deriving DecidableEq, Repr, Inhabited

def CharClass.holds (k : CharClass) (c : Char) : Bool :=
  (k.ranges.any fun (lo, hi) => lo ≤ c.toNat && c.toNat ≤ hi) != k.negated

structure CharSet where
  classes : List CharClass
  negated : Bool := false
  deriving DecidableEq, Repr, Inhabited

namespace CharSet

def holds (s : CharSet) (c : Char) : Bool := (s.classes.any (·.holds c)) != s.negated

def single (c : Char) : CharSet := ⟨[⟨[(c.toNat, c.toNat)], false⟩], false⟩

def anyOnLine : CharSet := ⟨[⟨[(0x0A, 0x0A)], false⟩], true⟩

end CharSet

inductive Anchor where
  | start
  | stop
  | wordEdge
  | noWordEdge
  deriving DecidableEq, Repr

inductive Pattern where
  | empty
  | anchor (a : Anchor)
  | char (set : CharSet)
  | seq (p q : Pattern)
  | alt (p q : Pattern)
  | rep (min : Nat) (max : Option Nat) (p : Pattern)
  deriving Repr, Inhabited

def isWordChar (c : Char) : Bool := c.isAlphanum || c = '_'

namespace Anchor

def holds (a : Anchor) (text : Array Char) (i : Nat) : Bool :=
  let before := 0 < i && (text[i - 1]?).any isWordChar
  let behind := (text[i]?).any isWordChar
  match a with
  | .start => i = 0
  | .stop => i = text.size
  | .wordEdge => before != behind
  | .noWordEdge => before == behind

end Anchor

def addNew (known new : List Nat) : List Nat :=
  new.foldl (fun l i => if l.contains i then l else i :: l) known

/-- Positions reached by applying `f` any number of times; `fuel` bounds the rounds. -/
def closure (f : List Nat → List Nat) : (fuel : Nat) → List Nat → List Nat
  | 0, known => known
  | fuel + 1, known =>
    let next := addNew known (f known)
    if next.length = known.length then known else closure f fuel next

def times {α : Type} (f : α → α) : Nat → α → α
  | 0, a => a
  | n + 1, a => times f n (f a)

def upTo (f : List Nat → List Nat) : Nat → List Nat → List Nat
  | 0, known => known
  | n + 1, known => addNew known (upTo f n (f known))

namespace Pattern

/-- The positions where a match may end that starts at one of the given positions. -/
def ends (text : Array Char) : Pattern → List Nat → List Nat
  | .empty, at_ => at_
  | .anchor a, at_ => at_.filter (a.holds text)
  | .char set, at_ => (at_.filter fun i => (text[i]?).any set.holds).map (· + 1)
  | .seq p q, at_ => ends text q (ends text p at_)
  | .alt p q, at_ => addNew (ends text p at_) (ends text q at_)
  | .rep min max p, at_ =>
    let first := times (ends text p) min at_
    match max with
    | some max => upTo (ends text p) (max - min) first
    | none => closure (ends text p) (text.size + 1) first

def occurs (p : Pattern) (s : Bytes) : Bool :=
  let text := ((Utf8.glyphs s).map Glyph.shown).toArray
  !(p.ends text (List.range (text.size + 1))).isEmpty

end Pattern

end ShaderForge
