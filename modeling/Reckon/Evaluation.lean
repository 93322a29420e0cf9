import Reckon.Association
import Reckon.Expr
import Reckon.Text.Quoted
import Reckon.Vocabulary
/-!
# The value of a tree

`Expr.value` says what a tree is worth: operands from left to right, then the
operation.  A leaf may be impure: a method draws a random number, a supplier
is asked for one.  What they answer is up to the `World` in which the tree is
evaluated; nothing is remembered from one evaluation to the next.

In the world of the `Sources` a supplier answers the next number of its list,
and every question leaves a trace, on failure too.
-/

namespace Reckon

/-- The state of everything that can answer differently each time: how often
each supplier was asked, and the random numbers with how many were drawn. -/
structure Sources where
  asked : List (Nat × Nat)
  drawn : Nat
  random : Nat → Float

namespace Sources

/-- Sources that nobody has asked yet. -/
def fresh (random : Nat → Float) : Sources :=
  ⟨[], 0, random⟩

/-- How often the supplier of a given identity was asked. -/
def timesAsked (s : Sources) (identity : Nat) : Nat :=
  (Association.get? identity s.asked).getD 0

end Sources

/-- The answer of a supplier when it was asked `n` times before. -/
def Supplier.answer (s : Supplier) (n : Nat) : Number :=
  match n % (s.others.length + 1) with
  | 0 => s.first
  | k + 1 => s.others.getD k s.first

/-- Why a tree has no value. -/
inductive EvalError where
  | unknownOperator (op : String)
  | unknownFunction (name : String)
  | unknownMethod (name : String)
  /-- A node without meaning. -/
  | bareNode
  /-- A missing node. -/
  | missingNode
  /-- A supplier answered an integer beyond the range of doubles. -/
  | tooLarge
  /-- An operation found too few operands. -/
  | unbalanced
deriving DecidableEq, Repr

namespace EvalError

/-- The wording of an error; an unknown word is quoted. -/
def message : EvalError → String
  | .unknownOperator word | .unknownFunction word | .unknownMethod word => Text.quoted word
  | .bareNode => "Cannot evaluate Node"
  | .missingNode => "Cannot evaluate NoneType"
  | .tooLarge => "int too large to convert to float"
  | .unbalanced => "operands and operators do not match"

end EvalError

/-- What an evaluation meets outside of the tree: how suppliers answer and
random numbers are drawn, each with whatever state lies behind it, the
elementary functions, and what an error of the tree is among the errors that
can arise there. -/
structure World (ε σ : Type) where
  ask : Supplier → EStateM ε σ Float
  draw : EStateM ε σ Float
  elementary : Elementary
  fail : EvalError → ε

namespace World

variable {ε σ : Type} (w : World ε σ)

/-- Fails with an error of the tree. -/
def raise {α : Type} (e : EvalError) : EStateM ε σ α :=
  throw (w.fail e)

/-- Calls a method. -/
def method (name : String) : EStateM ε σ Float :=
  if name ∈ Method.names then w.draw else w.raise (.unknownMethod name)

/-- A minus sign negates; any other sign leaves the value. -/
def sign (op : String) (x : Float) : Float :=
  if op = "-" then -x else x

/-- Applies a binary operator, which must be known. -/
def operator (op : String) (a b : Float) : EStateM ε σ Float :=
  match Operator.ofText? op with
  | some o => return o.applyBy w.elementary a b
  | none => w.raise (.unknownOperator op)

/-- Applies a function, which must be known. -/
def function (name : String) (x : Float) : EStateM ε σ Float :=
  match Function.ofName? name with
  | some f => return f.applyBy w.elementary x
  | none => w.raise (.unknownFunction name)

end World

/-- The value of a tree. -/
def Expr.value {ε σ : Type} (w : World ε σ) : Expr → EStateM ε σ Float
  | .constant _ x => return x
  | .supplied _ supplier _ => w.ask supplier
  | .method _ name => w.method name
  | .reference _ _ producer => producer.value w
  | .unary _ op operand => return World.sign op (← operand.value w)
  | .binary _ op left right => do
    let a ← left.value w
    let b ← right.value w
    w.operator op a b
  | .call _ name argument => do w.function name (← argument.value w)
  | .bare _ => w.raise .bareNode
  | .absent => w.raise .missingNode

/-- A computation that may ask the sources. -/
abbrev Evaluation := EStateM EvalError Sources

namespace Evaluation

/-- Draws a random number. -/
def draw : Evaluation Float :=
  modifyGet fun s => (s.random s.drawn, { s with drawn := s.drawn + 1 })

/-- Asks a supplier; an answer that is no double fails after it was given. -/
def ask (supplier : Supplier) : Evaluation Float := do
  let times ← modifyGet fun s =>
    let times := s.timesAsked supplier.identity
    (times, { s with asked := Association.put supplier.identity (times + 1) s.asked })
  match (supplier.answer times).toDouble? with
  | some x => return x
  | none => throw .tooLarge

end Evaluation

/-- The world of the sources, with the elementary functions of the machine. -/
def Sources.world : World EvalError Sources where
  ask := Evaluation.ask
  draw := Evaluation.draw
  elementary := .ofMachine
  fail := id

end Reckon
