import Reckon.Calculation
import Reckon.Text.Lines
/-!
# The command line

    eval <expression> [name=value ...]     writes the value
    check <expression> [name=value ...]    writes OK if the expression can be read
    run <file> [name=value ...]            evaluates the expression in a file

Faults of the settings, of the source and of the assignments are written to
the error output and end the program with status 1.  A fault of the files
themselves escapes, and so does one of the reader of settings or of the log.
-/

namespace Reckon

namespace CommandLine

/-- How a run of the program ends: with a status and what was written, or by a
fault that nothing catches. -/
inductive Ending where
  | exit (status : Nat) (output errors : String)
  | escape (f : Fault)

/-- What the program can be asked to do. -/
inductive Command where
  | eval | check | run
deriving DecidableEq

namespace Command

/-- The command of a given name. -/
def ofName? : String → Option Command
  | "eval" => some .eval
  | "check" => some .check
  | "run" => some .run
  | _ => none

/-- The name of a command. -/
def name : Command → String
  | .eval => "eval"
  | .check => "check"
  | .run => "run"

/-- What the operand of a command is. -/
def operand : Command → String
  | .run => "<file>"
  | _ => "<expression>"

end Command

/-- Lines of text, each with its line end. -/
def lines (ls : List String) : String :=
  String.join (ls.map (· ++ "\n"))

/-- Ends with status 1 and some lines of errors. -/
def failure (ls : List String) : Ending :=
  .exit 1 "" (lines ls)

/-- The line for a fault that is caught. -/
def faultText (f : Fault) : String :=
  lines ["Error: " ++ f.text]

/-- Faults of sources, settings and assignments are caught. -/
def isCaught : Fault → Bool
  | .assignment _ => true
  | f => f.diagnostic?.isSome

/-- Applies the settings, carries out the assignments and reads the expression. -/
def prepare (settings : Entries) (source : String) (assignments : List String) : Work Expr := do
  let limit ← Work.applySettings settings
  Assignment.performAll limit assignments
  Work.read limit source

/-- The line that a command writes about the tree of its expression. -/
def conclude (command : Command) (settings : Entries) (tree : Expr) : Work String := do
  if command = .check then return "OK"
  else
    let x ← Work.evaluate tree
    Work.lift id (formatValue x (Settings.places? settings))

/-- Reads the expression with its assignments, and answers with the line to
write. -/
def answer (command : Command) (settings : Entries) (source : String)
    (assignments : List String) : Work String := do
  conclude command settings (← prepare settings source assignments)

/-- What is logged about the work on a desk. -/
def log (settings : Entries) (d : Desk) : String :=
  if Settings.showsDebug settings then lines (d.journal.map Event.line) else ""

/-- What stops the logging of some events, if anything does: a tree with many
levels can take more room to be shown than there is, a fault that nothing
catches. -/
abbrev LogLimit := List Event → Option OutsideFault

/-- What stops the log of the work on a desk, if debug events are logged at all. -/
def stop? (limit : LogLimit) (settings : Entries) (d : Desk) : Option OutsideFault :=
  if Settings.showsDebug settings then limit d.journal else none

/-- An ending behind the log of a desk.  An event that cannot be logged ends the
run there and then, whatever would have come of it. -/
def behindLog (limit : LogLimit) (settings : Entries) (d : Desk) (ending : Ending) : Ending :=
  match stop? limit settings d with
  | some f => .escape (.outside f)
  | none => ending

/-- Carries out a command on an expression. -/
def calculate (limit : LogLimit) (command : Command) (settings : Entries) (source : String)
    (assignments : List String) (sources : Sources) : Ending :=
  match answer command settings source assignments (Desk.fresh sources) with
  | .ok text d => behindLog limit settings d (.exit 0 (lines [text]) (log settings d))
  | .error f d => behindLog limit settings d
    (if isCaught f then .exit 1 "" (log settings d ++ faultText f) else .escape f)

/-- The expression in a file: strict UTF-8, with unified line ends, without
blanks at its ends. -/
def expressionIn (path : String) : FileEntry → Except Fault String
  | .directory => .error (.directory path)
  | .file bytes =>
    match Text.decode bytes with
    | .ok cs => .ok (String.ofList (Text.stripChars (Text.unifyLines cs)))
    | .error e => .error (.encoding e)

/-- The expression that a command works on: its operand, or for `run` what the
file of that name holds. -/
def expression? (command : Command) (operand : String) (files : FileTree) :
    Except Fault (Option String) :=
  if command = .run then
    match files.find? operand with
    | none => .ok none
    | some entry => (expressionIn operand entry).map some
  else .ok (some operand)

/-- Runs the program on its arguments, with the files of its directory. -/
def run (reader : Settings.Reader) (limit : LogLimit) (arguments : List String)
    (files : FileTree) (sources : Sources) : Ending :=
  match arguments with
  | [] =>
    failure ["Usage: strmath <command> <expression|file> [name=value ...]",
      "Commands: eval, check, run"]
  | word :: rest =>
    match Command.ofName? word, rest with
    | none, _ => failure ["Unknown command: " ++ word]
    | some command, [] =>
      failure ["Usage: strmath " ++ command.name ++ " " ++ command.operand ++ " [name=value ...]"]
    | some command, operand :: assignments =>
      match Settings.load reader Settings.fileName (files.find? Settings.fileName) with
      | .error f => if isCaught f then .exit 1 "" (faultText f) else .escape f
      | .ok settings =>
        match expression? command operand files with
        | .error f => .escape f
        | .ok none => failure ["Error: file not found: " ++ operand]
        | .ok (some source) => calculate limit command settings source assignments sources

end CommandLine

end Reckon
