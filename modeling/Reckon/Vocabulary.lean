import Reckon.Arithmetic
/-!
# Operators, functions and methods

The words that an expression may use besides its variables.  A function takes
one argument, a method takes none.
-/

namespace Reckon

/-- A binary operator. -/
inductive Operator where
  | add | subtract | multiply | divide | raise
deriving DecidableEq

namespace Operator

/-- The operator with a given sign. -/
def ofText? : String → Option Operator
  | "+" => some .add
  | "-" => some .subtract
  | "*" => some .multiply
  | "/" => some .divide
  | "^" => some .raise
  | _ => none

/-- The value of an operation, with the given elementary functions. -/
def applyBy (elementary : Elementary) : Operator → Float → Float → Float
  | .add, a, b => a + b
  | .subtract, a, b => a - b
  | .multiply, a, b => a * b
  | .divide, a, b => Reckon.divide a b
  | .raise, a, b => powerBy elementary.power a b

/-- The value of an operation. -/
def apply : Operator → Float → Float → Float :=
  applyBy .ofMachine

end Operator

/-- A function of one argument. -/
inductive Function where
  | sqrt | sin | cos | tan | asin | acos | atan | abs | round | log | degrees | radians
deriving DecidableEq

namespace Function

/-- Every function, with its name. -/
def table : List (String × Function) :=
  [("sqrt", .sqrt), ("sin", .sin), ("cos", .cos), ("tan", .tan), ("asin", .asin), ("acos", .acos),
   ("atan", .atan), ("abs", .abs), ("round", .round), ("log", .log), ("degrees", .degrees),
   ("radians", .radians)]

/-- The function of a given name. -/
def ofName? (name : String) : Option Function :=
  table.lookup name

/-- The value of a function, with the given elementary functions. -/
def applyBy (elementary : Elementary) : Function → Float → Float
  | .sqrt, x => guarded elementary.sqrt x
  | .sin, x => guarded elementary.sin x
  | .cos, x => guarded elementary.cos x
  | .tan, x => guarded elementary.tan x
  | .asin, x => guarded elementary.asin x
  | .acos, x => guarded elementary.acos x
  | .atan, x => guarded elementary.atan x
  | .abs, x => x.abs
  | .round, x => roundHalfUp x
  | .log, x => guarded (logarithmBy elementary.log) x
  | .degrees, x => Reckon.degrees x
  | .radians, x => Reckon.radians x

/-- The value of a function. -/
def apply : Function → Float → Float :=
  applyBy .ofMachine

end Function

namespace Method

/-- The names of the methods.  Each draws a random number. -/
def names : List String :=
  ["random", "rndm"]

end Method

/-- Names in alphabetical order. -/
def sortedNames (names : List String) : List String :=
  names.mergeSort (· ≤ ·)

end Reckon
