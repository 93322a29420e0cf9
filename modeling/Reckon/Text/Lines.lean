/-!
# Line ends

The lines of a file may end in a line feed, a carriage return, or both in this
order; read as text, each ends in a line feed.
-/

namespace Reckon.Text

/-- A text with every line end as a single line feed. -/
def unifyLines : List Char → List Char
  | [] => []
  | '\r' :: '\n' :: rest => '\n' :: unifyLines rest
  | '\r' :: rest => '\n' :: unifyLines rest
  | c :: rest => c :: unifyLines rest

end Reckon.Text
