import Reckon.Yaml.Source
/-!
# Places in a YAML text

A spot is the text that is left together with the number of its line and the
column in that line.  Columns carry the structure of the text, so every step
that consumes a character moves the column, and a line break takes it back to
zero.  A byte order mark takes no column.

A step ends only where it is known what stands next.  So whoever is at a spot
has its first character, or none at the end of the text; to look further, one
has to reach for what is there, and a text that breaks off before fails then.
-/

namespace Reckon.Yaml

/-- A place in a text. -/
structure Spot where
  /-- How many characters stand before. -/
  index : Nat
  /-- How many lines end before. -/
  line : Nat
  column : Nat
  /-- What is left of the text. -/
  rest : List Char
  /-- Why the text breaks off behind what is left, if it does. -/
  break? : Option Failure

/-- A line break. -/
def isBreak (c : Char) : Bool :=
  c == '\n' || c == '\r' || c == '\x85' || c == '\u2028' || c == '\u2029'

/-- What a line break is read as: the two separators of lines and paragraphs
stay, and every other break is a line feed. -/
def breakText (c : Char) : Char :=
  if c = '\u2028' ∨ c = '\u2029' then c else '\n'

/-- A character that separates tokens. -/
def isSeparator (c : Char) : Bool :=
  c == ' ' || c == '\t' || isBreak c

/-- Nothing is left, or a separator comes first. -/
def beginsSeparated : List Char → Bool
  | [] => true
  | c :: _ => isSeparator c

/-- A character of the brackets and commas of flow collections. -/
def isFlowIndicator (c : Char) : Bool :=
  c == ',' || c == '[' || c == ']' || c == '\x7b' || c == '\x7d'

namespace Spot

/-- Makes sure of the next `n` characters: they can be had, or else the text
ends before. -/
def reach (n : Nat) (s : Spot) : Reading Unit :=
  match s.break? with
  | some f => if (s.rest.take n).length < n then throw f else return ()
  | none => return ()

/-- Past `n` characters that are no line breaks. -/
def skip (n : Nat) (s : Spot) : Reading Spot := do
  s.reach (n + 1)
  return { s with
    index := s.index + n
    column := s.column + ((s.rest.take n).filter (· ≠ '\ufeff')).length
    rest := s.rest.drop n }

/-- Past the characters of a kind at the spot. -/
def skipWhile (p : Char → Bool) (s : Spot) : Reading Spot :=
  s.skip (s.rest.takeWhile p).length

/-- At the beginning of the next line, past a break at the spot. -/
def nextLine (s : Spot) : Reading Spot := do
  s.reach 2
  let n := match s.rest with
    | '\r' :: '\n' :: _ => 2
    | _ => 1
  s.reach (n + 1)
  return { s with index := s.index + n, line := s.line + 1, column := 0, rest := s.rest.drop n }

/-- The beginning of a text, past a byte order mark. -/
def start (src : Source) : Reading Spot := do
  let s : Spot := ⟨0, 0, 0, src.chars, src.break?⟩
  s.reach 1
  s.skip (if s.rest.head? = some '\ufeff' then 1 else 0)

/-- Dashes or points that begin or end a document stand at the spot, which is
the beginning of a line. -/
def atMarker (s : Spot) : Reading Bool := do
  s.reach 3
  if s.rest.take 3 = ['-', '-', '-'] ∨ s.rest.take 3 = ['.', '.', '.'] then
    s.reach 4
    return beginsSeparated (s.rest.drop 3)
  else return false

/-- The next spot that holds something, past spaces, comments and line breaks;
the first argument bounds the lines. -/
def toContent : Nat → Spot → Reading Spot
  | 0, s => return s
  | lines + 1, s => do
    let s ← s.skipWhile (· == ' ')
    let s ← if s.rest.head? = some '#' then s.skipWhile (!isBreak ·) else pure s
    if s.rest.head?.any isBreak then toContent lines (← s.nextLine) else return s

end Spot

end Reckon.Yaml
