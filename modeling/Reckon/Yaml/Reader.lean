import Reckon.Fault
import Reckon.Yaml.Lexer
import Reckon.Yaml.Node
/-!
# Reading YAML

A reader for the program to run with (`reader`), for the part of YAML that
settings are written in: one document with block mappings and lists, flow
collections in brackets and braces, plain and quoted scalars, and document
markers.  The last of equal keys wins.  Any other reader could stand in its
place; nothing is said about settings that hangs on this one.

Tokens are read one by one, from the left.  What is wrong with them shows at
the first that cannot stand where it stands, before any scalar is read.
-/

namespace Reckon.Yaml

/-- Why reading cannot go on with these tokens. -/
def unexpected : List Token → Failure
  | .failed f :: _ => f
  | _ => .malformed

mutual

/-- The node with which tokens begin.  A list may be `loose`: under a key its
dashes need not stand to the right of the key, so that no block begins. -/
def node : Nat → (loose : Bool) → List Token → Reading (Node × List Token)
  | 0, _, ts => throw (unexpected ts)
  | fuel + 1, loose, ts =>
    match ts with
    | .word w :: ts => return (.word w, ts)
    | .openBracket :: ts => (flowItems fuel ts).map fun (items, ts) => (.list items, ts)
    | .openBrace :: ts => (flowEntries fuel ts).map fun (es, ts) => (.mapping es, ts)
    | .listStart :: ts => do
      match ← blockItems fuel ts with
      | (items, .blockEnd :: ts) => return (.list items, ts)
      | (_, ts) => throw (unexpected ts)
    | .mappingStart :: ts => (blockEntries fuel ts).map fun (es, ts) => (.mapping es, ts)
    | .dash :: _ =>
      if loose then (blockItems fuel ts).map fun (items, ts) => (.list items, ts)
      else throw .malformed
    | _ => throw (unexpected ts)

/-- A node that may be missing. -/
def nodeOrMissing : Nat → (loose : Bool) → List Token → Reading (Node × List Token)
  | 0, _, ts => throw (unexpected ts)
  | fuel + 1, loose, ts =>
    if ts.head?.any Token.isVacant then return (.missing, ts) else node fuel loose ts

/-- What belongs to a key that may be without a value. -/
def mapped : Nat → (loose : Bool) → List Token → Reading (Node × List Token)
  | 0, _, ts => throw (unexpected ts)
  | fuel + 1, loose, ts =>
    match ts with
    | .value :: ts => nodeOrMissing fuel loose ts
    | _ => return (.missing, ts)

/-- The items behind dashes. -/
def blockItems : Nat → List Token → Reading (List Node × List Token)
  | 0, ts => throw (unexpected ts)
  | fuel + 1, ts =>
    match ts with
    | .dash :: ts => do
      let (item, ts) ← match ts with
        | .dash :: _ => pure (.missing, ts)
        | _ => nodeOrMissing fuel false ts
      let (items, ts) ← blockItems fuel ts
      return (item :: items, ts)
    | _ => return ([], ts)

/-- The entries of a block mapping up to its end. -/
def blockEntries : Nat → List Token → Reading (List (Node × Node) × List Token)
  | 0, ts => throw (unexpected ts)
  | fuel + 1, ts =>
    match ts with
    | .key :: ts => do
      let (key, ts) ← nodeOrMissing fuel true ts
      let (value, ts) ← mapped fuel true ts
      let (entries, ts) ← blockEntries fuel ts
      return ((key, value) :: entries, ts)
    | .blockEnd :: ts => return ([], ts)
    | _ => throw (unexpected ts)

/-- The items of a flow list up to its closing bracket.  An item with a key is
a mapping of one entry. -/
def flowItems : Nat → List Token → Reading (List Node × List Token)
  | 0, ts => throw (unexpected ts)
  | fuel + 1, ts =>
    match ts with
    | .closeBracket :: ts => return ([], ts)
    | _ => do
      let (item, ts) ← match ts with
        | .key :: ts => do
          let (key, ts) ← nodeOrMissing fuel false ts
          let (value, ts) ← mapped fuel false ts
          pure (Node.mapping [(key, value)], ts)
        | _ => node fuel false ts
      match ts with
      | .comma :: ts => (flowItems fuel ts).map fun (items, ts) => (item :: items, ts)
      | .closeBracket :: ts => return ([item], ts)
      | _ => throw (unexpected ts)

/-- The entries of a flow mapping up to its closing brace.  An entry without a
colon is a key with nothing as its value. -/
def flowEntries : Nat → List Token → Reading (List (Node × Node) × List Token)
  | 0, ts => throw (unexpected ts)
  | fuel + 1, ts =>
    match ts with
    | .closeBrace :: ts => return ([], ts)
    | _ => do
      let (entry, ts) ← match ts with
        | .key :: ts => do
          let (key, ts) ← nodeOrMissing fuel false ts
          let (value, ts) ← mapped fuel false ts
          pure ((key, value), ts)
        | _ => (node fuel false ts).map fun (key, ts) => ((key, .missing), ts)
      match ts with
      | .comma :: ts => (flowEntries fuel ts).map fun (es, ts) => (entry :: es, ts)
      | .closeBrace :: ts => return ([entry], ts)
      | _ => throw (unexpected ts)

end

/-- Tokens without the ends of documents in front of them. -/
def pastEnds : List Token → List Token
  | .documentEnd :: ts => pastEnds ts
  | ts => ts

/-- What stands behind the marker at the beginning of a document, which may be
nothing. -/
def documentContent (fuel : Nat) (ts : List Token) : Reading (Node × List Token) :=
  match ts with
  | [] | .documentStart :: _ | .documentEnd :: _ => return (.missing, ts)
  | _ => node fuel false ts

/-- The one document that tokens hold; without any it is nothing. -/
def document (ts : List Token) : Reading Node := do
  let fuel := 3 * ts.length + 3
  let (node, behind) ← match ts with
    | [] => pure (.missing, [])
    | .documentStart :: ts => documentContent fuel ts
    | _ => node fuel false ts
  match pastEnds behind with
  | [] => return node
  | ts => throw (unexpected ts)

/-- The datum that a YAML text holds. -/
def read (src : Source) : Reading Datum := do
  (← document src.tokens).datum

/-- The kind of a fault of a scalar. -/
def ScalarFault.kind : ScalarFault → String
  | .tooLarge | .noWord => "OverflowError"
  | _ => "ValueError"

/-- A failure, as it is met by those who have a file read. -/
def Failure.outcome : Failure → Settings.ReadFailure
  | .malformed => .malformed fun path => path ++ ": malformed, or more of YAML than is read here"
  | .scalar f => .fault ⟨f.kind, f.message, false⟩
  | .encoding e => .fault ⟨"UnicodeDecodeError", e.message, false⟩

/-- The reader of this part of YAML. -/
def reader : Settings.Reader := fun bytes =>
  (read (.ofBytes bytes)).mapError Failure.outcome

end Reckon.Yaml
