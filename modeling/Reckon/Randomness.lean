/-!
# Random numbers

A stream of numbers that are not below 0 and below 1, every one computed from
a seed and its place in the stream by mixing the bits of both.
-/

namespace Reckon

/-- Mixes the bits of a word. -/
def mixBits (z : UInt64) : UInt64 :=
  let z := (z ^^^ (z >>> 30)) * 0xbf58476d1ce4e5b9
  let z := (z ^^^ (z >>> 27)) * 0x94d049bb133111eb
  z ^^^ (z >>> 31)

/-- The random number at a place of the stream of a seed: 53 mixed bits behind
the binary point. -/
def randomAt (seed : UInt64) (n : Nat) : Float :=
  (mixBits (seed + (n.toUInt64 + 1) * 0x9e3779b97f4a7c15) >>> 11).toFloat / 9007199254740992.0

end Reckon
