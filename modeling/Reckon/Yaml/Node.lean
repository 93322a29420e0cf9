import Reckon.Yaml.Word
/-!
# Nodes

What stands in a YAML text before its scalars are read: words, lists, and
mappings from nodes to nodes.  `Node.datum` gives the datum of a node.

A plain `<<` as a key brings the entries of its mapping, or of the mappings in
its list, before the entries that stand beside it; where an entry stands
twice, the later one counts, and in a list the earlier mapping.  All `.nan` of
a text name one value, so they are one key, although NaNs from elsewhere are
all different.

Data are made level by level, what lies less deep before what lies deeper.
So of several scalars that stand for nothing the one that lies least deep
makes the text unreadable, and of those the first.
-/

namespace Reckon.Yaml

/-- A node of a YAML text. -/
inductive Node where
  | word (w : Word)
  | list (items : List Node)
  | mapping (entries : List (Node × Node))

namespace Node

/-- Where nothing stands, a plain word without characters is meant. -/
def missing : Node := .word (.plain [])

/-- A key that brings the entries of other mappings. -/
def isBringing : Node → Bool
  | .word (.plain ['<', '<']) => true
  | _ => false

/-- The entries of a mapping. -/
def entries? : Node → Option (List (Node × Node))
  | .mapping es => some es
  | _ => none

/-- The entries that a node brings: a mapping its own, a list those of its
mappings from the last to the first. -/
def brought? : Node → Option (List (Node × Node))
  | .list items => (items.mapM entries?).map fun parts => parts.reverse.flatten
  | node => node.entries?

/-- The entries of a mapping with those that its keys bring.  A key that can
bring nothing stays, in front of all, also when it comes from a mapping that
is brought. -/
def gathered (entries : List (Node × Node)) : List (Node × Node) :=
  let (bringing, others) := entries.partition fun (k, _) => k.isBringing
  let all := bringing.flatMap (fun (k, v) => v.brought?.getD [(k, v)]) ++ others
  let (idle, others) := all.partition fun (k, _) => k.isBringing
  idle ++ others

mutual

/-- A node with the entries of all its mappings gathered. -/
def gather : Node → Node
  | .word w => .word w
  | .list items => .list (gatherItems items)
  | .mapping entries => .mapping (gathered (gatherEntries entries))

/-- Nodes with the entries of all their mappings gathered. -/
def gatherItems : List Node → List Node
  | [] => []
  | n :: rest => n.gather :: gatherItems rest

/-- Entries with the entries of all mappings in them gathered. -/
def gatherEntries : List (Node × Node) → List (Node × Node)
  | [] => []
  | (k, v) :: rest => (k.gather, v.gather) :: gatherEntries rest

end

/-- The key that a node is; only a word can be one. -/
def key : Node → Reading Scalar
  | .word w => w.key
  | _ => throw .malformed

/-- The failure of a reading, with the level where it arises. -/
def failureAt {α : Type} (level : Nat) : Reading α → List (Nat × Failure)
  | .ok _ => []
  | .error f => [(level, f)]

mutual

/-- All failures in a node at a level, in the order of the text. -/
def failures (level : Nat) : Node → List (Nat × Failure)
  | .word w => failureAt level w.scalar
  | .list items => failuresOfItems (level + 1) items
  | .mapping entries => failuresOfEntries (level + 1) entries

/-- All failures in nodes at a level. -/
def failuresOfItems (level : Nat) : List Node → List (Nat × Failure)
  | [] => []
  | n :: rest => n.failures level ++ failuresOfItems level rest

/-- All failures in entries at a level. -/
def failuresOfEntries (level : Nat) : List (Node × Node) → List (Nat × Failure)
  | [] => []
  | (k, v) :: rest => failureAt level k.key ++ v.failures level ++ failuresOfEntries level rest

end

/-- Two scalars of a text are the same key. -/
def sameKey (a b : Scalar) : Bool :=
  a == b || (a.isNaN && b.isNaN)

/-- Gives a key of a text a value. -/
def put (k : Scalar) (d : Datum) (entries : Entries) : Entries :=
  @Association.put Scalar Datum ⟨sameKey⟩ k d entries

mutual

/-- The datum of a node without failures. -/
def content : Node → Datum
  | .word w => .scalar (w.scalar.toOption.getD .nothing)
  | .list items => .list (contentOfItems items)
  | .mapping entries => .mapping (contentOfEntries [] entries)

/-- The data of nodes without failures. -/
def contentOfItems : List Node → List Datum
  | [] => []
  | n :: rest => n.content :: contentOfItems rest

/-- The entries so far with those of further nodes without failures. -/
def contentOfEntries (acc : Entries) : List (Node × Node) → Entries
  | [] => acc
  | (k, v) :: rest =>
    contentOfEntries (put (k.key.toOption.getD .nothing) v.content acc) rest

end

/-- The datum of a node, or its first failure in the order of levels. -/
def datum (node : Node) : Reading Datum :=
  let node := node.gather
  match (node.failures 0).mergeSort fun a b => a.1 ≤ b.1 with
  | (_, f) :: _ => throw f
  | [] => return node.content

end Node

end Reckon.Yaml
