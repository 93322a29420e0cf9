import Reckon.Yaml.Word
/-!
# Tokens of YAML

A YAML text is a row of tokens: words, marks, and the beginnings and ends of
block collections, which the columns of the text tell.  A key is marked before
it begins, although its colon comes behind it.

A text that cannot be read to its end gives the tokens that can be told
without what comes behind them, and then a token for the failure.  So whoever
reads the tokens one by one meets the failure only if nothing before it is
wrong.
-/

namespace Reckon.Yaml

/-- A token. -/
inductive Token where
  | documentStart
  | documentEnd
  /-- The first item of a block list follows. -/
  | listStart
  /-- The first key of a block mapping follows. -/
  | mappingStart
  /-- The innermost block collection ends. -/
  | blockEnd
  | openBracket
  | closeBracket
  | openBrace
  | closeBrace
  | comma
  | dash
  /-- A key follows. -/
  | key
  /-- The value of a key follows. -/
  | value
  | word (w : Word)
  /-- The text cannot be read any further. -/
  | failed (f : Failure)

/-- In front of these tokens nothing stands where something could: what is
missing there counts as nothing. -/
def Token.isVacant : Token → Bool
  | .key | .value | .blockEnd | .comma | .closeBracket | .closeBrace => true
  | _ => false

end Reckon.Yaml
