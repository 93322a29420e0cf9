import Reckon.Desk
import Reckon.Origin
/-!
# Sessions

A session keeps named scopes, named readers and named trees.  A reader is a
source with a depth limit and a scope, its own or one that it shares; what is
bound in a shared scope is seen by every reader of it that reads afterwards.
A tree that was read stays as it is, and can be bound to a name in turn.  Two
trees are compared with regard to their origins.

Scopes are kept in the order in which they were made and are referred to by
their place, so that a name given to a new scope leaves the readers of the
old one alone.
-/

namespace Reckon

/-- A source to be read, with its depth limit and the place of its scope. -/
structure Reader where
  source : String
  limit : Datum
  scope : Nat

/-- A scope, and under which bindings a tree is read that is read in it. -/
structure Workspace where
  scope : Scope
  origin : Origin

/-- A tree that was read, and under which bindings it was. -/
structure ReadTree where
  tree : Expr
  origin : Origin

/-- Everything that a session keeps. -/
structure Session where
  scopes : List Workspace
  scopeNames : List (String × Nat)
  readers : List (String × Reader)
  trees : List (String × ReadTree)
  /-- How many bindings were made. -/
  bindings : Nat
  /-- The identity of the supplier last offered under a name. -/
  offered : List (String × Nat)
  sources : Sources

namespace Session

/-- A session in which nothing was done yet. -/
def fresh (sources : Sources) : Session :=
  ⟨[], [], [], [], 0, [], sources⟩

/-- A scope is referred to by its own name or by a reader of it. -/
inductive Target where
  | scope (name : String)
  | reader (name : String)

/-- What is offered as a value: something new, or a tree of the session. -/
inductive Value where
  | new (d : Datum)
  | tree (name : String)

/-- A step of a session. -/
inductive Step where
  | newScope (name : String)
  | newReader (name source : String) (scope : Option String) (limit : Datum)
  | assign (target : Target) (name : String) (value : Value)
  | find (target : Target) (name : String)
  | resolve (target : Target) (name : String) (position : Int)
  | names (target : Target)
  | size (target : Target)
  | describe (target : Target)
  | contains (target : Target) (name : Datum)
  | source (reader : String)
  /-- Reads the source of a reader and keeps the tree under a name. -/
  | parse (reader tree : String)
  | eval (tree : String)
  | alike (a b : String)
  /-- How often the supplier last offered under a name was asked. -/
  | calls (name : String)

/-- What a step answers. -/
inductive Reply where
  | done
  | tree (e : Option Expr)
  | names (ns : List String)
  | count (n : Nat)
  | text (s : String)
  | truth (b : Bool)
  | value (x : Float)

/-- Why a step fails: a fault, or a name that the session does not know. -/
inductive Failure where
  | fault (f : Fault)
  | unknown (name : String)

/-- Work in a session. -/
abbrev Working := EStateM Failure Session

/-- What is kept under a name. -/
def kept {α : Type} (name : String) (entries : List (String × α)) : Working α :=
  match Association.get? name entries with
  | some a => return a
  | none => throw (.unknown name)

/-- The place of the scope that a target refers to. -/
def placeOf (target : Target) : Working Nat := do
  let s ← get
  match target with
  | .scope name => kept name s.scopeNames
  | .reader name => return (← kept name s.readers).scope

/-- A scope with the built-in constants only. -/
def seeded : Workspace := ⟨.seeded, .nowhere⟩

/-- The scope at a place.  Places are only given out for scopes. -/
def scopeAt (s : Session) (place : Nat) : Workspace :=
  s.scopes.getD place seeded

/-- The scope that a target refers to. -/
def scopeOf (target : Target) : Working Scope := do
  return ((← get).scopeAt (← placeOf target)).scope

/-- Makes a new scope; the answer is its place. -/
def addScope : Working Nat :=
  modifyGet fun s => (s.scopes.length, { s with scopes := s.scopes ++ [seeded] })

/-- Takes over a result. -/
def lift {ε α : Type} (toFault : ε → Fault) : Except ε α → Working α
  | .ok a => return a
  | .error e => throw (.fault (toFault e))

/-- What a value offers, and its origin.  A supplier is noted as the last one
offered under the name. -/
def offerOf (name : String) : Value → Working (Datum × Origin)
  | .tree id => do
    let kept ← kept id (← get).trees
    return (.tree kept.tree, kept.origin)
  | .new d => do
    if let .supplier supplier := d then
      modify fun s => { s with offered := Association.put name supplier.identity s.offered }
    return (d, .nowhere)

/-- Binds a name in the scope at a place. -/
def bindAt (place : Nat) (name : String) (value : Datum) (origin : Origin) : Working Unit := do
  let s ← get
  let w := s.scopeAt place
  let scope ← lift .refusal (w.scope.assign name value)
  let bound : Workspace := ⟨scope, w.origin.bind name s.bindings origin⟩
  set { s with scopes := s.scopes.set place bound, bindings := s.bindings + 1 }

/-- Carries out a step. -/
def step : Step → Working Reply
  | .newScope name => do
    let place ← addScope
    modify fun s => { s with scopeNames := Association.put name place s.scopeNames }
    return .done
  | .newReader name source scope limit => do
    let place ← match scope with
      | some shared => placeOf (.scope shared)
      | none => addScope
    modify fun s => { s with readers := Association.put name ⟨source, limit, place⟩ s.readers }
    return .done
  | .assign target name value => do
    let place ← placeOf target
    let (offer, origin) ← offerOf name value
    bindAt place name offer origin
    return .done
  | .find target name => return .tree ((← scopeOf target).find? name)
  | .resolve target name position => do
    return .tree (some (← lift .parse ((← scopeOf target).resolve name position)))
  | .names target => return .names (← scopeOf target).names
  | .size target => return .count (← scopeOf target).size
  | .describe target => return .text (← scopeOf target).describe
  | .contains target name => do
    let scope ← scopeOf target
    match name with
    | .scalar key => return .truth (scope.contains key)
    | given => throw (.fault (.notAKey given))
  | .source name => return .text (← kept name (← get).readers).source
  | .parse name treeName => do
    let s ← get
    let reader ← kept name s.readers
    let w := s.scopeAt reader.scope
    let tree ← lift id (parseUnder w.scope reader.limit reader.source)
    modify fun s => { s with trees := Association.put treeName ⟨tree, w.origin⟩ s.trees }
    return .tree (some tree)
  | .eval name => do
    let s ← get
    let kept ← kept name s.trees
    match evaluate kept.tree s.sources with
    | .ok x sources =>
      set { s with sources := sources }
      return .value x
    | .error e sources =>
      set { s with sources := sources }
      throw (.fault (.evaluation e))
  | .alike a b => do
    let s ← get
    let a ← kept a s.trees
    let b ← kept b s.trees
    return .truth (a.tree.alikeFrom a.origin b.origin b.tree)
  | .calls name => do
    let s ← get
    return .count ((Association.get? name s.offered).elim 0 s.sources.timesAsked)

end Session

end Reckon
