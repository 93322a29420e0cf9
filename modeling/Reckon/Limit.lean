import Reckon.Fault
/-!
# Limits of depth as they are given

Validated settings limit the depth by an integer.  A limit that nobody has
validated can be any datum.  A double allows as many levels as the greatest
integer that is not above it, and NaN allows any number, since no depth is
above it; a truth value counts as 0 or 1.  With any other datum no depth can
be compared, and reading fails where the first factor begins.

A source cannot nest more factors than it has characters, and one more: so
many levels are as good as any number.  Under an integer a source is read as
usual (`parseUnder_ofInt`).
-/

namespace Reckon

namespace Datum

/-- The number that a limit counts as. -/
def limit? : Datum → Option Number
  | .scalar s => s.count?
  | _ => none

/-- How many levels a limit allows in a source of a given length. -/
def levels (length : Nat) (limit : Datum) : Int :=
  match limit.limit? with
  | some (.integer n) => n
  | some (.double x) => (Double.floor? x).getD (if x < 0.0 then 0 else length + 1)
  | none => 0

end Datum

/-- What a fault is under a limit as it was given.  An integer is named by the
fault already. -/
def ParseError.under (limit : Datum) (e : ParseError) : Fault :=
  match limit, e.fault with
  | .scalar (.number (.integer _)), _ => .parse e
  | _, .tooDeep _ =>
    if limit.limit?.isSome then .parse { e with fault := .tooDeep limit.plain }
    else .incomparable limit
  | _, _ => .parse e

/-- The tree of a source under a limit as it was given. -/
def parseUnder (scope : Scope) (limit : Datum) (source : String) : Except Fault Expr :=
  (parse scope (limit.levels source.length) source).mapError (·.under limit)

/-- Under an integer a source is read as usual. -/
theorem parseUnder_ofInt (scope : Scope) (n : Int) (source : String) :
    parseUnder scope (.ofInt n) source = (parse scope n source).mapError .parse := rfl

end Reckon
