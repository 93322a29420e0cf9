import Reckon.Grammar
/-!
# Parsers

A parser has a cursor, a scope in which it looks variables up, and a count of
the factors that it stands in.  The rules of the grammar are its methods: they
call each other, go round for as long as operators follow, and count a factor
while they are in it, whether it can be read or not.

Nothing in a method bounds how often it calls and goes round, so a method is
given some fuel, which a call and a turn use up; one that runs out of it has
come to no end.  How much is needed, and that any more changes nothing, follows
from what the methods do.
-/

namespace Reckon

/-- A parser; its source is that of the cursor. -/
structure Parser where
  cursor : Cursor
  scope : Scope
  /-- How deep factors may nest. -/
  limit : Int
  /-- How many factors are begun and not yet ended. -/
  depth : Int
deriving DecidableEq

/-- A method that comes to an end has a result or a fault, and leaves a parser
behind in both cases. -/
abbrev Method := ExceptT ParseError (StateT Parser Option)

namespace Parser

/-- A parser of which nothing was asked yet. -/
def fresh (scope : Scope) (limit : Int) (source : String) : Parser :=
  ⟨.ofSource source, scope, limit, 0⟩

/-- One more factor is begun. -/
def enter (p : Parser) : Parser :=
  { p with depth := p.depth + 1 }

/-- A factor is ended. -/
def leave (p : Parser) : Parser :=
  { p with depth := p.depth - 1 }

/-- Back to the first character, with no factor begun. -/
def rewind (p : Parser) : Parser :=
  { p with cursor := p.cursor.reset.advance, depth := 0 }

/-- The fuel has run out. -/
def unfinished {α : Type} : Method α :=
  fun _ => none

/-- Carries out a rule that needs nothing but the cursor. -/
def onCursor {α : Type} (rule : Rule α) : Method α := fun p =>
  match rule p.cursor with
  | .ok a c => some (.ok a, { p with cursor := c })
  | .error e c => some (.error e, { p with cursor := c })

/-- A part is carried out inside of one more factor.  On failure too the count
is taken back. -/
def counted {α : Type} (part : Method α) : Method α := fun p => do
  let (outcome, p) ← part p.enter
  return (outcome, p.leave)

open Grammar

/-- A name, and what follows it decides what it names. -/
def identifier (expression : Method Expr) : Method Expr := do
  let start ← onCursor here
  let name := String.ofList (← onCursor (scan Cursor.isAlphabetic))
  if ← onCursor (eat '(') then
    if ← onCursor (eat ')') then onCursor (method name start)
    else
      let argument ← expression
      if ← onCursor (eat ')') then
        if (Function.ofName? name).isSome then return .call start name argument
        else onCursor (failAt start (.unknownFunction name))
      else onCursor (fail (.unclosedCall name))
  else
    let p ← get
    onCursor (reference p.scope name start)

/-- A group, a number or a name. -/
def base (expression : Method Expr) : Method Expr := do
  if ← onCursor (eat '(') then
    let opened ← onCursor consumedAt
    let inner ← expression
    if ← onCursor (eat ')') then return inner
    else onCursor (fail (.unclosedGroup opened))
  else
    match ← onCursor current with
    | some c =>
      if Cursor.isNumeric c then onCursor number
      else if Cursor.isAlphabetic c then identifier expression
      else onCursor (fail (.unexpected (some c)))
    | none => onCursor (fail (.unexpected none))

/-- A sign before a factor, or a base with an optional exponent, unless too
many factors are begun. -/
def factor (factor base : Method Expr) : Method Expr := do
  let p ← get
  if p.limit < p.depth then onCursor (fail (.tooDeep (toString p.limit)))
  else
    match ← onCursor (eatAny ['+', '-']) with
    | some sign =>
      let place ← onCursor consumedAt
      let operand ← factor
      return .unary place sign.toString operand
    | none =>
      let bottom ← base
      if ← onCursor (eat '^') then
        let place ← onCursor consumedAt
        let exponent ← factor
        return .binary place "^" bottom exponent
      else return bottom

/-- Goes on behind a tree for as long as operators follow, grouping to the
left. -/
def goOn (operand : Method Expr) (signs : List Char) : (fuel : Nat) → Expr → Method Expr
  | 0, _ => unfinished
  | fuel + 1, tree => do
    match ← onCursor (eatAny signs) with
    | none => return tree
    | some sign =>
      let place ← onCursor consumedAt
      let right ← operand
      goOn operand signs fuel (.binary place sign.toString tree right)

/-- The method of a level. -/
def read : (fuel : Nat) → Level → Method Expr
  | 0, _ => unfinished
  | fuel + 1, .expression => do
    let first ← read fuel .term
    goOn (read fuel .term) ['+', '-'] fuel first
  | fuel + 1, .term => do
    let first ← read fuel .factor
    goOn (read fuel .factor) ['*', '/'] fuel first
  | fuel + 1, .factor => counted (factor (read fuel .factor) (read fuel .base))
  | fuel + 1, .base => base (read fuel .expression)

/-- Reads the whole source from its beginning. -/
def parse (fuel : Nat) : Method Expr := do
  modify rewind
  let tree ← read fuel .expression
  let p ← get
  if p.cursor.atEnd then return tree else onCursor (fail (.trailing p.cursor.current))

/-- What can be asked of a parser. -/
inductive Use where
  | parse
  | read (level : Level)
  /-- Binds a variable of the parser. -/
  | bind (name : String) (producer : Expr)

/-- The parser that a use leaves behind, whether it succeeds or fails. -/
def Use.apply (fuel : Nat) : Use → Parser → Option Parser
  | .parse, p => (Parser.parse fuel p).map Prod.snd
  | .read level, p => (Parser.read fuel level p).map Prod.snd
  | .bind name producer, p => some { p with scope := p.scope.bind name producer }

/-- The parser after some uses. -/
def after (fuel : Nat) (p : Parser) (uses : List Use) : Option Parser :=
  uses.foldlM (fun p use => use.apply fuel p) p

end Parser

end Reckon
