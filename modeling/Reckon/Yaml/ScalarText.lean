import Reckon.Yaml.Plain
import Reckon.Yaml.Spot
/-!
# Scalars in the text

Quoted and plain scalars as they stand in a YAML text.  A scalar may go on
over several lines: the blanks around a line break vanish, a single break is
read as a space, and of several breaks the first is dropped.  In double quotes
a backslash begins an escape; in single quotes a quote is written twice.

What stands in quotes is read as code points, for an escape can name one that
no character has.
-/

namespace Reckon.Yaml

/-- What breaks in the middle of a scalar are read as: the first break is
dropped if it is a line feed and others follow, and a lone one is a space. -/
def folded (first : Char) (others : List Char) : List Char :=
  if first ≠ '\n' then first :: others
  else if others.isEmpty then [' ']
  else others

/-- The further breaks from the beginning of a line on, with the blanks
between them skipped.  There are none at all if a document marker stands at
the beginning of a line. -/
def breaksFrom (isBlank : Char → Bool) : Nat → Spot → Reading (Option (List Char) × Spot)
  | 0, s => return (none, s)
  | fuel + 1, s => do
    if ← s.atMarker then return (none, s)
    let s ← s.skipWhile isBlank
    match s.rest with
    | c :: _ =>
      if isBreak c then
        let (more, s) ← breaksFrom isBlank fuel (← s.nextLine)
        return (more.map (breakText c :: ·), s)
      else return (some [], s)
    | [] => return (some [], s)

/-- A blank inside quotes. -/
def isQuotedBlank (c : Char) : Bool :=
  c == ' ' || c == '\t'

/-- The characters that a letter after a backslash stands for. -/
def escapes : List (Char × Char) :=
  [('0', '\x00'), ('a', '\x07'), ('b', '\x08'), ('t', '\t'), ('\t', '\t'), ('n', '\n'),
   ('v', '\x0b'), ('f', '\x0c'), ('r', '\r'), ('e', '\x1b'), (' ', ' '), ('"', '"'), ('\\', '\\'),
   ('/', '/'), ('N', '\x85'), ('_', '\xa0'), ('L', '\u2028'), ('P', '\u2029')]

/-- How many hexadecimal digits follow an escape by code point. -/
def codeWidths : List (Char × Nat) :=
  [('x', 2), ('u', 4), ('U', 8)]

/-- The code point in so many hexadecimal digits at the spot. -/
def codePoint (width : Nat) (s : Spot) : Reading Nat := do
  let digits := (s.rest.take width).takeWhile fun c => (hexDigit? c).isSome
  s.reach (min width (digits.length + 1))
  if digits.length < width then throw .malformed
  let code := natInBase 16 digits
  if 0x80000000 ≤ code then throw (.scalar .noWord)
  if 0x110000 ≤ code then throw (.scalar .noCharacter)
  return code

/-- Further breaks inside quotes, where no document marker may stand. -/
def quotedBreaks (fuel : Nat) (s : Spot) : Reading (List Char × Spot) := do
  match ← breaksFrom isQuotedBlank fuel s with
  | (some breaks, s) => return (breaks, s)
  | (none, _) => throw .malformed

/-- The inside of a quoted scalar up to its closing quote, and the spot behind
the quote. -/
def quotedFrom (quote : Char) : Nat → Spot → Reading (List Nat × Spot)
  | 0, _ => throw .malformed
  | fuel + 1, s => do
    let keep (cs : List Char) (s : Spot) : Reading (List Nat × Spot) := do
      let (more, s) ← quotedFrom quote fuel s
      return (cs.map Char.toNat ++ more, s)
    match s.rest with
    | [] => throw .malformed
    | c :: _ =>
      if isQuotedBlank c then
        let t ← s.skipWhile isQuotedBlank
        if t.rest.head?.any isBreak then quotedFrom quote fuel t
        else keep (s.rest.takeWhile isQuotedBlank) t
      else if isBreak c then
        let (others, s) ← quotedBreaks fuel (← s.nextLine)
        keep (folded (breakText c) others) s
      else if c = quote then
        s.reach 2
        if quote = '\'' ∧ s.rest.take 2 = ['\'', '\''] then keep ['\''] (← s.skip 2)
        else return ([], ← s.skip 1)
      else if c = '\\' ∧ quote = '"' then
        let s ← s.skip 1
        match s.rest with
        | [] => throw .malformed
        | e :: _ =>
          match escapes.lookup e, codeWidths.lookup e with
          | some c, _ => keep [c] (← s.skip 1)
          | none, some width =>
            let s ← s.skip 1
            let code ← codePoint width s
            let (more, s) ← quotedFrom quote fuel (← s.skip width)
            return (code :: more, s)
          | none, none =>
            if isBreak e then
              let (others, s) ← quotedBreaks fuel (← s.nextLine)
              keep others s
            else throw .malformed
      else keep [c] (← s.skip 1)

/-- A quoted scalar whose opening quote stands at the spot; the first argument
bounds its length. -/
def quotedScalar (fuel : Nat) (quote : Char) (s : Spot) : Reading (List Nat × Spot) := do
  quotedFrom quote fuel (← s.skip 1)

/-- A plain scalar ends before this text: at a separator, at a colon before a
separator, and inside a flow collection also at one of its indicators. -/
def plainEnds (inFlow : Bool) : List Char → Bool
  | [] => true
  | ':' :: rest =>
    beginsSeparated rest || (inFlow && rest.head?.any isFlowIndicator)
  | c :: _ => isSeparator c || (inFlow && (isFlowIndicator c || c == '?'))

/-- The run of characters that belong to a plain scalar. -/
def plainRun (inFlow : Bool) : List Char → List Char
  | [] => []
  | c :: rest => if plainEnds inFlow (c :: rest) then [] else c :: plainRun inFlow rest

/-- A plain scalar in the text. -/
structure PlainText where
  chars : List Char
  /-- Where what follows the scalar begins. -/
  stop : Spot
  /-- The scalar is followed by a line break. -/
  endsLine : Bool

/-- The run of a plain scalar at the spot, and the spot behind it. -/
def takeRun (inFlow : Bool) (s : Spot) : Reading (List Char × Spot) := do
  let run := plainRun inFlow s.rest
  let t ← s.skip run.length
  if t.rest.head? = some ':' then t.reach 2
  return (run, t)

/-- Goes on with a plain scalar behind one of its runs.  On a further line it
goes on only at `indent` or to the right of it, unless in a flow collection. -/
def plainMore (inFlow : Bool) (indent : Nat) : Nat → Spot → Reading PlainText
  | 0, s => return ⟨[], s, false⟩
  | fuel + 1, s => do
    let blanks := s.rest.takeWhile (· == ' ')
    let here ← s.skip blanks.length
    let goOn (gap : List Char) (s : Spot) (newLine : Bool) : Reading PlainText := do
      if s.rest.head? = some '#' ∨ (!inFlow ∧ s.column < indent) then return ⟨[], s, newLine⟩
      let (run, t) ← takeRun inFlow s
      if run.isEmpty then return ⟨[], s, newLine⟩
      let more ← plainMore inFlow indent fuel t
      return { more with chars := gap ++ run ++ more.chars }
    match here.rest with
    | [] => return ⟨[], here, false⟩
    | c :: _ =>
      if isBreak c then
        match ← breaksFrom (· == ' ') fuel (← here.nextLine) with
        | (some others, next) => goOn (folded (breakText c) others) next true
        | (none, next) => return ⟨[], next, true⟩
      else if blanks.isEmpty then return ⟨[], here, false⟩
      else goOn blanks here false

/-- A plain scalar at the spot; the first argument bounds its length. -/
def plainText (fuel : Nat) (inFlow : Bool) (indent : Nat) (s : Spot) : Reading PlainText := do
  let (run, t) ← takeRun inFlow s
  let more ← plainMore inFlow indent fuel t
  return { more with chars := run ++ more.chars }

/-- The characters that begin something else than a plain scalar. -/
def indicators : List Char :=
  ['#', '&', '*', '!', '|', '>', '\'', '"', '%', '@', '\x60']

/-- A plain scalar can begin with this text: not with an indicator, save for
a dash, a question mark or a colon before something else. -/
def plainBegins (inFlow : Bool) : List Char → Bool
  | [] => false
  | c :: rest =>
    if c == '-' then !beginsSeparated rest
    else if c == '?' || c == ':' then !inFlow && !beginsSeparated rest
    else !isSeparator c && !isFlowIndicator c
      && !indicators.contains c

end Reckon.Yaml
