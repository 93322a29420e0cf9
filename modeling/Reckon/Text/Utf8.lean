/-!
# Strict UTF-8

Bytes are read as text only when they are well formed: no overlong form, no
surrogate, nothing beyond the last code point, nothing cut short.  A fault
names the bytes that begin the broken sequence and what is wrong with it.
-/

namespace Reckon.Text

/-- What is wrong with a byte sequence. -/
inductive Utf8Fault where
  /-- A byte that begins no sequence. -/
  | start
  /-- A sequence whose next byte does not continue it. -/
  | continuation
  /-- A sequence that the end of the bytes cuts short. -/
  | truncated
deriving DecidableEq, Repr

/-- The bytes at `position`, `count` of them, of which the first is `byte`,
cannot be read. -/
structure Utf8Error where
  position : Nat
  count : Nat
  byte : UInt8
  fault : Utf8Fault
deriving DecidableEq, Repr

/-- How a first byte goes on: how many bytes follow, the bounds of the first
of them, and the bits that the first byte contributes. -/
def leadByte? (b : UInt8) : Option (Nat × UInt8 × UInt8 × Nat) :=
  if b < 0x80 then some (0, 0, 0, b.toNat)
  else if b < 0xc2 then none
  else if b < 0xe0 then some (1, 0x80, 0xbf, b.toNat - 0xc0)
  else if b = 0xe0 then some (2, 0xa0, 0xbf, 0)
  else if b = 0xed then some (2, 0x80, 0x9f, 0xd)
  else if b < 0xf0 then some (2, 0x80, 0xbf, b.toNat - 0xe0)
  else if b = 0xf0 then some (3, 0x90, 0xbf, 0)
  else if b < 0xf4 then some (3, 0x80, 0xbf, b.toNat - 0xf0)
  else if b = 0xf4 then some (3, 0x80, 0x8f, 4)
  else none

/-- Reads `missing` continuation bytes, the first within the given bounds.
The answer is the code point and the bytes left, or the fault and how many
bytes had been taken before it. -/
def continueRead : (missing : Nat) → (low high : UInt8) → (taken code : Nat) → List UInt8 →
    Except (Utf8Fault × Nat) (Nat × List UInt8)
  | 0, _, _, _, code, bs => .ok (code, bs)
  | _ + 1, _, _, taken, _, [] => .error (.truncated, taken)
  | missing + 1, low, high, taken, code, b :: bs =>
    if low ≤ b ∧ b ≤ high then
      continueRead missing 0x80 0xbf (taken + 1) (64 * code + (b.toNat - 0x80)) bs
    else .error (.continuation, taken)

/-- Reads bytes from a position on; the first argument bounds the number of
characters. -/
def decodeFrom : Nat → Nat → List UInt8 → Except Utf8Error (List Char)
  | 0, _, _ => .ok []
  | _ + 1, _, [] => .ok []
  | fuel + 1, position, b :: bs =>
    match leadByte? b with
    | none => .error ⟨position, 1, b, .start⟩
    | some (missing, low, high, code) =>
      match continueRead missing low high 1 code bs with
      | .error (fault, count) => .error ⟨position, count, b, fault⟩
      | .ok (point, rest) =>
        (decodeFrom fuel (position + missing + 1) rest).map (Char.ofNat point :: ·)

/-- The text that well-formed bytes hold. -/
def decode (bs : List UInt8) : Except Utf8Error (List Char) :=
  decodeFrom bs.length 0 bs

end Reckon.Text
