import Reckon.Vocabulary
/-!
# The guide to expressions

The text that explains to a user of the service how expressions are written.
The names in it are those of the vocabulary, in alphabetical order.
-/

namespace Reckon

/-- Words with commas between them. -/
def commaList (words : List String) : String :=
  ", ".intercalate words

/-- The guide. -/
def guide : String :=
  let functions := commaList (sortedNames (Function.table.map (·.1)))
  let methods := commaList ((sortedNames Method.names).map (· ++ "()"))
  "\n".intercalate
    ["# Writing string-math expressions",
     "",
     "Use the strmath_evaluate tool to compute a value and strmath_check to",
     "validate syntax.",
     "",
     "## Operators (loosest to tightest)",
     "```",
     "a + b    a - b        left-associative",
     "a * b    a / b        left-associative",
     "-a   +a               unary, may be chained: --a",
     "a ^ b                 right-associative: 2^3^2 = 512",
     "```",
     "",
     "Exponentiation applies after a call or group: `sqrt(4)^2` is 4.",
     "A leading minus wraps the whole power: `-2^2` is -4.",
     "",
     "## Names",
     "- Variables: lowercase letters only (`x`, `rate`). Built in: `e`, `pi`.",
     "- Functions (one argument): " ++ functions,
     "- Methods (no argument): " ++ methods,
     "",
     "## Rules",
     "1. Numbers are decimal literals: `3`, `2.5`, `.5` (no exponent notation)",
     "2. No implicit multiplication: write `2*x`, not `2x`",
     "3. Functions take exactly one argument",
     "4. Spaces are ignored between tokens; tabs and newlines are not allowed",
     "5. Division by zero gives inf or nan rather than an error",
     ""]

end Reckon
