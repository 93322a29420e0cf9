import Reckon.Cursor
import Reckon.Diagnostic
import Reckon.Double.Numeral
import Reckon.Scope
import Reckon.Vocabulary
/-!
# Reading expressions

    expression := term { ("+" | "-") term }
    term       := factor { ("*" | "/") factor }
    factor     := ("+" | "-") factor
                | base [ "^" factor ]
    base       := "(" expression ")"
                | number
                | name                      a variable
                | name "(" ")"              a method
                | name "(" expression ")"   a function

An exponent is read at factor level: `^` groups to the right, applies to the
result of a call or group, and binds more tightly than a sign before it.

Each rule reads from a cursor and leaves it behind what it has read, on
failure too.  Factors may nest only so deep: the rule of a factor counts down
an allowance, and this is also what the recursion rests on.  Variables are
looked up while the source is read.
-/

namespace Reckon

/-- Why a source cannot be read. -/
inductive ParseFault where
  /-- Something is left over after a whole expression. -/
  | trailing (found : Option Char)
  /-- No operand begins here. -/
  | unexpected (found : Option Char)
  /-- The group opened at `opened` is not closed. -/
  | unclosedGroup (opened : Int)
  /-- The argument of a function is not closed. -/
  | unclosedCall (name : String)
  | malformedNumber (text : String)
  | unknownVariable (name : String)
  | unknownMethod (name : String)
  | unknownFunction (name : String)
  /-- Factors nest deeper than the limit, of which this is the text. -/
  | tooDeep (limit : String)
deriving DecidableEq, Repr

/-- A fault and its place. -/
structure ParseError where
  fault : ParseFault
  position : Int
deriving DecidableEq, Repr

namespace ParseFault

/-- What stands at a place, or that nothing does. -/
def describeFound : Option Char → String
  | some c => "Unexpected: '" ++ c.toString ++ "'"
  | none => "Unexpected end of input"

/-- The wording of a fault. -/
def message : ParseFault → String
  | .trailing found => describeFound found
  | .unexpected found => describeFound found
  | .unclosedGroup opened => "Missing ')' (group opened at index " ++ toString opened ++ ")"
  | .unclosedCall name => "Missing ')' after argument to " ++ name
  | .malformedNumber text => "Malformed number: '" ++ text ++ "'"
  | .unknownVariable name => "Unknown variable: " ++ name
  | .unknownMethod name => "Unknown method: " ++ name
  | .unknownFunction name => "Unknown function: " ++ name
  | .tooDeep limit => "Expression nested deeper than " ++ limit ++ " levels"

/-- The kind of a fault. -/
def kind : ParseFault → FaultKind
  | .trailing _ => .trailingInput
  | .unexpected _ => .unexpectedCharacter
  | .unclosedGroup _ | .unclosedCall _ => .unclosedGroup
  | .malformedNumber _ => .malformedNumber
  | .unknownVariable _ | .unknownMethod _ | .unknownFunction _ => .unknownIdentifier
  | .tooDeep _ => .nestingTooDeep

/-- The unknown name, if the fault is one. -/
def name? : ParseFault → Option String
  | .unknownVariable name | .unknownMethod name | .unknownFunction name => some name
  | _ => none

end ParseFault

/-- The diagnostic of a fault at its place. -/
def ParseError.diagnostic (e : ParseError) : Diagnostic where
  category := .kind e.fault.kind
  message := e.fault.message
  position := e.position
  name := e.fault.name?

/-- The tree bound to a name, or the fault that nothing is. -/
def Scope.resolve (s : Scope) (name : String) (position : Int := -1) : Except ParseError Expr :=
  match s.find? name with
  | some producer => .ok producer
  | none => .error ⟨.unknownVariable name, position⟩

/-- A rule reads from a cursor; the cursor keeps what was read on failure. -/
abbrev Rule := EStateM ParseError Cursor

namespace Grammar

/-- The position of the cursor. -/
def here : Rule Int := return (← get).pos

/-- The current character. -/
def current : Rule (Option Char) := return (← get).current

/-- Fails at a given place. -/
def failAt {α : Type} (position : Int) (fault : ParseFault) : Rule α :=
  throw ⟨fault, position⟩

/-- Fails at the place of the cursor. -/
def fail {α : Type} (fault : ParseFault) : Rule α := do
  failAt (← here) fault

/-- Skips spaces and consumes a character if it is the current one. -/
def eat (c : Char) : Rule Bool :=
  modifyGet (Cursor.eat [c])

/-- Consumes the first of some characters that is current after spaces. -/
def eatAny : List Char → Rule (Option Char)
  | [] => return none
  | c :: rest => do if ← eat c then return some c else eatAny rest

/-- Consumes the longest run of a class of characters. -/
def scan (p : Char → Bool) : Rule (List Char) :=
  modifyGet (Cursor.scan p)

/-- The position of the character consumed last. -/
def consumedAt : Rule Int := return (← here) - 1

/-- A number: the whole run of digits and points. -/
def number : Rule Expr := do
  let start ← here
  let text ← scan Cursor.isNumeric
  match Double.ofNumeral? text with
  | some value => return .constant start value
  | none => failAt start (.malformedNumber (String.ofList text))

variable (scope : Scope)

/-- A name without parentheses is a variable, bound to what the scope holds now. -/
def reference (name : String) (start : Int) : Rule Expr :=
  match scope.find? name with
  | some producer => return .reference start name producer
  | none => failAt start (.unknownVariable name)

/-- A name with empty parentheses is a method. -/
def method (name : String) (start : Int) : Rule Expr :=
  if name ∈ Method.names then return .method start name
  else failAt start (.unknownMethod name)

/-- A name with an argument is a function; whether there is one of that name is
asked only once the argument is closed. -/
def call (expression : Rule Expr) (name : String) (start : Int) : Rule Expr := do
  let argument ← expression
  if ← eat ')' then
    if (Function.ofName? name).isSome then return .call start name argument
    else failAt start (.unknownFunction name)
  else fail (.unclosedCall name)

/-- A name, and what follows it decides what it names. -/
def identifier (expression : Rule Expr) : Rule Expr := do
  let start ← here
  let name := String.ofList (← scan Cursor.isAlphabetic)
  if ← eat '(' then
    if ← eat ')' then method name start else call expression name start
  else reference scope name start

/-- A group, a number or a name. -/
def base (expression : Rule Expr) : Rule Expr := do
  if ← eat '(' then
    let opened ← consumedAt
    let inner ← expression
    if ← eat ')' then return inner else fail (.unclosedGroup opened)
  else
    match ← current with
    | some c =>
      if Cursor.isNumeric c then number
      else if Cursor.isAlphabetic c then identifier scope expression
      else fail (.unexpected (some c))
    | none => fail (.unexpected none)

/-- Goes on with operators and operands, grouping to the left.  Every operator
consumes a character, so the characters that are left bound the number of
turns. -/
def chain (operand : Rule Expr) (signs : List Char) : (left : List Char) → Expr → Rule Expr
  | [], tree => return tree
  | _ :: left, tree => do
    match ← eatAny signs with
    | none => return tree
    | some sign =>
      let place ← consumedAt
      let right ← operand
      chain operand signs left (.binary place sign.toString tree right)

/-- Operands with operators of one level between them. -/
def operations (operand : Rule Expr) (signs : List Char) : Rule Expr := do
  let first ← operand
  chain operand signs (← get).rest first

/-- Factors with `*` and `/` between them. -/
def term (factor : Rule Expr) : Rule Expr :=
  operations factor ['*', '/']

/-- Terms with `+` and `-` between them. -/
def expression (factor : Rule Expr) : Rule Expr :=
  operations (term factor) ['+', '-']

/-- A sign before a factor, or a base with an optional exponent.  The last
argument is how many factors may still nest. -/
def factor (limit : Int) : (allowance : Nat) → Rule Expr
  | 0 => fail (.tooDeep (toString limit))
  | allowance + 1 => do
    match ← eatAny ['+', '-'] with
    | some sign =>
      let place ← consumedAt
      let operand ← factor limit allowance
      return .unary place sign.toString operand
    | none =>
      let bottom ← base scope (expression (factor limit allowance))
      if ← eat '^' then
        let place ← consumedAt
        let exponent ← factor limit allowance
        return .binary place "^" bottom exponent
      else return bottom

/-- A rule of the grammar. -/
inductive Level where
  | expression | term | factor | base
deriving DecidableEq, Repr

/-- How many factors may still nest where `depth` of them do already. -/
def allowance (limit depth : Int) : Nat :=
  (limit - depth).toNat

/-- The rule of a level inside of `depth` factors, where `limit` may nest.  The
depth is given to a rule, so no rule can leave it changed. -/
def Level.rule (limit depth : Int) (level : Level) : Rule Expr :=
  let factor := Grammar.factor scope limit (allowance limit depth)
  match level with
  | .expression => Grammar.expression factor
  | .term => Grammar.term factor
  | .factor => factor
  | .base => Grammar.base scope (Grammar.expression factor)

/-- A whole source: an expression and nothing after it. -/
def whole (limit : Int) : Rule Expr := do
  let tree ← Level.expression.rule scope limit 0
  let c ← get
  if c.atEnd then return tree else fail (.trailing c.current)

end Grammar

/-- How deep factors may nest unless told otherwise. -/
def defaultLimit : Int := 100

/-- The tree of a source. -/
def parse (scope : Scope) (limit : Int) (source : String) : Except ParseError Expr :=
  match Grammar.whole scope limit (Cursor.ofSource source).advance with
  | .ok tree _ => .ok tree
  | .error e _ => .error e

end Reckon
