import Reckon.Calculation
import Reckon.Settings.Memory
/-!
# The service

Two tools answer requests with a text: one evaluates an expression, the other
checks that it can be read.  Both work with the held settings and, on top of
their variables, with those of the request.  Faults of the settings, of the
source and of the values are answered as texts; any other escapes, save that a
fault of the reader of settings is answered too if it concerns the kind of a
value.
-/

namespace Reckon

namespace Service

/-- The two tools. -/
inductive Tool where
  | evaluate | check
deriving DecidableEq

/-- A request to a tool. -/
structure Request where
  tool : Tool
  expression : String
  bindings : Datum := .nothing

/-- A text is answered, or a fault escapes. -/
inductive Answer where
  | text (s : String)
  | escape (f : Fault)

/-- Faults of sources and settings are caught, and so are values of the wrong
kind and trees without meaning. -/
def isCaught : Fault → Bool
  | .refusal .tooLarge => false
  | .refusal _ => true
  | .evaluation .bareNode | .evaluation .missingNode => true
  | .notAKey _ | .noEntry _ | .incomparable _ => true
  | .outside f => f.concernsKind
  | f => f.diagnostic?.isSome

/-- Binds the variables of a request; void bindings are none at all. -/
def bind (bindings : Datum) : Work Unit :=
  if bindings.isVoid then return ()
  else
    match bindings with
    | .mapping vars => Work.assignEntries vars
    | given => throw (.noEntries given)

/-- The work of a request under settings. -/
def work (request : Request) (settings : Entries) : Work String := do
  let limit ← Work.applySettings settings
  bind request.bindings
  let tree ← Work.read limit request.expression
  match request.tool with
  | .check => return "OK"
  | .evaluate => return Double.text (← Work.evaluate tree)

/-- The answer to a fault. -/
def ofFault (f : Fault) : Answer :=
  if isCaught f then .text ("Error: " ++ f.text) else .escape f

/-- What the service keeps between requests: the settings in memory and the
random numbers. -/
structure State where
  shared : Settings.Shared
  sources : Sources

/-- Answers a request, with the files of its directory. -/
def answer (reader : Settings.Reader) (files : FileTree) (request : Request) (state : State) :
    Answer × State :=
  match state.shared.obtain reader Settings.fileName (files.find? Settings.fileName) with
  | .error f shared => (ofFault f, { state with shared := shared })
  | .ok a shared =>
    match work request (shared.memory.entries a) (Desk.fresh state.sources) with
    | .ok text desk => (.text text, ⟨shared, desk.sources⟩)
    | .error f desk => (ofFault f, ⟨shared, desk.sources⟩)

end Service

end Reckon
