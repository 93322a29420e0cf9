import Reckon.Yaml.ScalarText
import Reckon.Yaml.Token
/-!
# The tokens of a text

Block collections are told by columns: a dash, or a key, further to the right
than the block collection around it begins a new one, and a token further to
the left ends those that begin to the right of it.

A word or a bracket can turn out to be a key only when the colon comes.  Until
then it is a candidate.  A colon makes a key of the latest candidate between
the same brackets, if that lies on the same line and at most 1024 characters
before.  In a block mapping whatever stands where a key is due must become
one.

Tokens in front of all candidates are settled and are given out at once; the
others wait.

Tags, anchors, block scalars and directives are not admitted.
-/

namespace Reckon.Yaml

/-- A token that can still turn out to be a key. -/
structure Candidate where
  /-- How many tokens stand before. -/
  number : Nat
  spot : Spot
  /-- A key is due where the token stands. -/
  isDue : Bool

/-- A candidate that is too far back to be a key at a spot. -/
def Candidate.isStale (k : Candidate) (s : Spot) : Bool :=
  k.spot.line != s.line || k.spot.index + 1024 < s.index

/-- How far a text was taken apart. -/
structure Lexer where
  spot : Spot
  /-- How many tokens were given out. -/
  given : Nat := 0
  /-- The tokens that wait to be given out. -/
  waiting : List Token := []
  /-- The columns of the block collections at the spot, innermost first. -/
  columns : List Nat := []
  /-- The candidate outside all brackets. -/
  outer : Option Candidate := none
  /-- The candidates between the brackets that are open, innermost first. -/
  inner : List (Option Candidate) := []
  /-- A key may begin at the spot. -/
  admitsKey : Bool := true

namespace Lexer

/-- The spot lies between brackets. -/
def inFlow (l : Lexer) : Bool :=
  !l.inner.isEmpty

/-- The candidates, innermost first. -/
def candidates (l : Lexer) : List Candidate :=
  (l.inner ++ [l.outer]).filterMap id

/-- The candidate between the innermost brackets. -/
def candidate? (l : Lexer) : Option Candidate :=
  match l.inner with
  | k :: _ => k
  | [] => l.outer

/-- Sets the candidate between the innermost brackets. -/
def withCandidate (k : Option Candidate) (l : Lexer) : Lexer :=
  match l.inner with
  | _ :: ks => { l with inner := k :: ks }
  | [] => { l with outer := k }

/-- One token more. -/
def push (t : Token) (l : Lexer) : Lexer :=
  { l with waiting := l.waiting ++ [t] }

/-- Gives up the candidate between the innermost brackets, where no key may
be due. -/
def dropCandidate (l : Lexer) : Reading Lexer :=
  if l.candidate?.any (·.isDue) then throw .malformed else return l.withCandidate none

/-- Gives up the candidates that are stale, where no key may be due. -/
def dropStale (l : Lexer) : Reading Lexer :=
  let isStale (k : Candidate) := k.isStale l.spot
  if l.candidates.any fun k => isStale k && k.isDue then throw .malformed
  else return { l with
    outer := l.outer.filter (!isStale ·)
    inner := l.inner.map (·.filter (!isStale ·)) }

/-- Makes a candidate of the token at the spot, if a key may begin here. -/
def nominate (l : Lexer) : Reading Lexer := do
  if !l.admitsKey then return l
  let l ← l.dropCandidate
  return l.withCandidate
    (some ⟨l.given + l.waiting.length, l.spot, !l.inFlow && l.columns.head? = some l.spot.column⟩)

/-- A block collection that begins in a column is a new one. -/
def opensBlock (column : Nat) (l : Lexer) : Bool :=
  !l.inFlow && l.columns.head?.all (· < column)

/-- Begins a block collection in the column of the spot, if it is a new one. -/
def openBlock (t : Token) (l : Lexer) : Lexer :=
  if l.opensBlock l.spot.column then { l.push t with columns := l.spot.column :: l.columns } else l

/-- Ends all block collections that begin in the given columns. -/
def closeBlocks (isClosed : Nat → Bool) (l : Lexer) : Lexer :=
  if l.inFlow then l
  else { l with
    waiting := l.waiting ++ (l.columns.takeWhile isClosed).map fun _ => .blockEnd
    columns := l.columns.dropWhile isClosed }

/-- Consumes `n` characters, which are a token. -/
def take (n : Nat) (t : Token) (l : Lexer) : Reading Lexer := do
  return { l.push t with spot := ← l.spot.skip n }

/-- A document marker. -/
def marker (t : Token) (l : Lexer) : Reading Lexer := do
  let l ← (l.closeBlocks fun _ => true).dropCandidate
  take 3 t { l with admitsKey := false }

/-- An opening bracket, which can itself be the beginning of a key. -/
def openFlow (t : Token) (l : Lexer) : Reading Lexer := do
  let l ← l.nominate
  take 1 t { l with inner := none :: l.inner, admitsKey := true }

/-- A closing bracket. -/
def closeFlow (t : Token) (l : Lexer) : Reading Lexer :=
  match l.inner with
  | _ :: ks => take 1 t { l with inner := ks, admitsKey := false }
  | [] => throw .malformed

/-- A mark behind which a key may begin, also between brackets. -/
def separator (t : Token) (l : Lexer) : Reading Lexer := do
  let l ← l.dropCandidate
  take 1 t { l with admitsKey := true }

/-- The dash of an item. -/
def dash (l : Lexer) : Reading Lexer :=
  if l.inFlow then l.separator .dash
  else if l.admitsKey then (l.openBlock .listStart).separator .dash
  else throw .malformed

/-- The question mark of a key. -/
def explicitKey (l : Lexer) : Reading Lexer := do
  if l.inFlow then
    let l ← l.dropCandidate
    take 1 .key { l with admitsKey := false }
  else if l.admitsKey then (l.openBlock .mappingStart).separator .key
  else throw .malformed

/-- The colon of a value, which marks the candidate as a key. -/
def value (l : Lexer) : Reading Lexer :=
  match l.candidate? with
  | some k =>
    let isNew := l.opensBlock k.spot.column
    let (before, behind) := l.waiting.splitAt (k.number - l.given)
    let start := if isNew then [Token.mappingStart] else []
    take 1 .value { l.withCandidate none with
      waiting := before ++ start ++ .key :: behind
      columns := if isNew then k.spot.column :: l.columns else l.columns
      admitsKey := false }
  | none =>
    if l.inFlow then take 1 .value { l with admitsKey := false }
    else if l.admitsKey then (l.openBlock .mappingStart).take 1 .value
    else throw .malformed

/-- A word in quotes. -/
def quotedWord (fuel : Nat) (quote : Char) (l : Lexer) : Reading Lexer := do
  let l ← l.nominate
  let (points, s) ← quotedScalar fuel quote l.spot
  return { l.push (.word (.quoted points)) with spot := s, admitsKey := false }

/-- A plain word.  In a block collection its further lines stand to the right
of the column of the collection. -/
def plainWord (fuel : Nat) (l : Lexer) : Reading Lexer := do
  let l ← l.nominate
  let indent := l.columns.head?.elim 0 (· + 1)
  let t ← plainText fuel l.inFlow indent l.spot
  return { l.push (.word (.plain t.chars)) with spot := t.stop, admitsKey := t.endsLine }

/-- The token at the spot, which holds a character. -/
def token (fuel : Nat) (c : Char) (l : Lexer) : Reading Lexer := do
  let s := l.spot
  if s.column = 0 ∧ (c = '-' ∨ c = '.') then
    if ← s.atMarker then
      return ← l.marker (if c = '-' then .documentStart else .documentEnd)
  match c with
  | '[' => l.openFlow .openBracket
  | '\x7b' => l.openFlow .openBrace
  | ']' => l.closeFlow .closeBracket
  | '\x7d' => l.closeFlow .closeBrace
  | ',' => l.separator .comma
  | '"' => l.quotedWord fuel '"'
  | '\'' => l.quotedWord fuel '\''
  | _ =>
    if l.inFlow ∧ c = '?' then return ← l.explicitKey
    if l.inFlow ∧ c = ':' then return ← l.value
    s.reach 2
    if c = '-' ∧ beginsSeparated (s.rest.drop 1) then l.dash
    else if c = '?' ∧ beginsSeparated (s.rest.drop 1) then l.explicitKey
    else if c = ':' ∧ beginsSeparated (s.rest.drop 1) then l.value
    else if plainBegins l.inFlow s.rest then l.plainWord fuel
    else throw .malformed

/-- At the next spot that holds something. -/
def toContent (fuel : Nat) (l : Lexer) : Reading Lexer := do
  let l ← l.dropStale
  let s ← l.spot.toContent fuel
  let isNewLine := s.line != l.spot.line
  let l ← { l with spot := s, admitsKey := l.admitsKey || (!l.inFlow && isNewLine) }.dropStale
  return l.closeBlocks (s.column < ·)

/-- Gives out the tokens that can be told without what comes behind the spot:
those in front of all candidates. -/
def release (l : Lexer) : List Token × Lexer :=
  let count := match (l.candidates.filter (!·.isStale l.spot)).getLast? with
    | some k => k.number - l.given
    | none => l.waiting.length
  let (settled, waiting) := l.waiting.splitAt count
  (settled, { l with given := l.given + count, waiting })

/-- The last tokens, at the end of the text. -/
def finish (l : Lexer) : List Token :=
  match (l.closeBlocks fun _ => true).dropCandidate with
  | .error f => [.failed f]
  | .ok l => l.waiting

/-- The tokens from what was taken apart on; the first argument bounds the
characters left. -/
def tokensFrom : Nat → Lexer → List Token
  | 0, l => l.finish
  | fuel + 1, l =>
    match l.toContent (fuel + 1) with
    | .error f => [.failed f]
    | .ok l =>
      match l.spot.rest with
      | [] => l.finish
      | c :: _ =>
        match l.token (fuel + 1) c with
        | .error f => [.failed f]
        | .ok l =>
          let (settled, l) := l.release
          settled ++ tokensFrom fuel l

end Lexer

/-- The tokens of a text. -/
def Source.tokens (src : Source) : List Token :=
  match Spot.start src with
  | .error f => [.failed f]
  | .ok s => ({ spot := s } : Lexer).tokensFrom (src.chars.length + 1)

end Reckon.Yaml
