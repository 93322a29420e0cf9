import Reckon.Yaml.Plain
/-!
# Words

A word is a scalar as it stands in a YAML text, before it is known what it
stands for.
-/

namespace Reckon.Yaml

/-- The code points of a text in quotes, or a plain text. -/
inductive Word where
  | quoted (points : List Nat)
  | plain (cs : List Char)

namespace Word

/-- The scalar of a word. -/
def scalar : Word → Reading Scalar
  | .quoted points => return .ofPoints points
  | .plain cs => plainScalar cs

/-- The scalar of a word that is a key, where a lone `=` is a text. -/
def key : Word → Reading Scalar
  | .plain ['='] => return .text "="
  | w => w.scalar

end Word

end Reckon.Yaml
