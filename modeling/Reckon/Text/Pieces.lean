import Reckon.Text.Lines
import Reckon.Text.Utf8
/-!
# Bytes that arrive in pieces

A file that is read little by little is decoded piece by piece, as many pieces
as the characters that are wanted next take.  A sequence that the end of a
piece cuts short is kept for the next one, and so is a carriage return, which
a line feed may follow; what is left at the end is a fault.  Positions are
counted within what is decoded at once: a piece, with what was kept before it.

Pieces have a fixed size, but where characters of many bytes are expected,
a piece has as many bytes as the characters wanted are likely to take.
-/

namespace Reckon.Text

/-- The least number of bytes in a piece. -/
def pieceSize : Nat := 8192

/-- A file that is being read. -/
structure Inflow where
  /-- The bytes to come. -/
  bytes : List UInt8
  /-- The beginning of a sequence that the last piece cut short. -/
  kept : List UInt8 := []
  /-- The last piece ended in a carriage return. -/
  keepsReturn : Bool := false
  /-- Characters that were decoded and not yet handed out. -/
  ready : List Char := []
  /-- The bytes for each character in the last piece. -/
  density : Float := 0.0

namespace Inflow

/-- The characters of a piece, and the beginning of a sequence that the end of
the piece cuts short.  In the last piece that is a fault. -/
def decodePiece (isLast : Bool) (piece : List UInt8) : Except Utf8Error (List Char × List UInt8) :=
  match decode piece with
  | .ok cs => .ok (cs, [])
  | .error e =>
    if e.fault = .truncated ∧ !isLast then
      (decode (piece.take e.position)).map (·, piece.drop e.position)
    else .error e

/-- Decodes one more piece, for so many characters that are wanted.  Without
bytes to come the piece is the last one, and empty. -/
def advance (wanted : Nat) (flow : Inflow) : Except Utf8Error Inflow := do
  let likely := (max flow.density 1.0 * Float.ofNat wanted).toUInt64.toNat
  let piece := flow.bytes.take (max pieceSize likely)
  let (cs, kept) ← decodePiece piece.isEmpty (flow.kept ++ piece)
  let cs := if flow.keepsReturn then '\r' :: cs else cs
  let keepsReturn := !piece.isEmpty && cs.getLast? = some '\r'
  let ready := unifyLines (if keepsReturn then cs.dropLast else cs)
  return {
    bytes := flow.bytes.drop piece.length
    kept, keepsReturn
    ready := flow.ready ++ ready
    density := if ready.isEmpty then 0.0 else Float.ofNat piece.length / Float.ofNat ready.length }

/-- The next `count` characters, or as many as there are; the first argument
bounds the pieces. -/
def read : Nat → (count : Nat) → Inflow → Except Utf8Error (List Char × Inflow)
  | 0, count, flow => .ok (flow.ready.take count, { flow with ready := flow.ready.drop count })
  | fuel + 1, count, flow =>
    if count ≤ flow.ready.length then
      .ok (flow.ready.take count, { flow with ready := flow.ready.drop count })
    else do
      let next ← flow.advance (count - flow.ready.length)
      if flow.bytes.isEmpty ∧ next.ready.length = flow.ready.length then
        return (next.ready, { next with ready := [] })
      else next.read fuel count

/-- All reads of `count` characters up to the end or to a fault; the first
argument bounds them. -/
def readAll : Nat → (count : Nat) → Inflow → List (List Char) × Option Utf8Error
  | 0, _, _ => ([], none)
  | fuel + 1, count, flow =>
    match flow.read (flow.bytes.length + 2) count with
    | .error e => ([], some e)
    | .ok ([], _) => ([], none)
    | .ok (cs, flow) =>
      let (others, fault) := readAll fuel count flow
      (cs :: others, fault)

end Inflow

/-- What the reads of `count` characters of a file give, one after the other,
and the fault that ends them, if one does. -/
def readsOf (count : Nat) (bytes : List UInt8) : List (List Char) × Option Utf8Error :=
  ({ bytes : Inflow }).readAll (bytes.length + 1) count

end Reckon.Text
