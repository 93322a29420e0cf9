import Reckon.Text.Pieces
import Reckon.Yaml.Failure
/-!
# YAML texts as they are read

A text is read from a file portion by portion, and a portion is looked through
for characters that no text may hold when it is fetched.  So a fault of the
file shows only to a reader that comes as far as the portion with the fault; a
reader that fails before never learns of it.
-/

namespace Reckon.Yaml

/-- A text that can be read up to its end, or up to where it breaks off. -/
structure Source where
  chars : List Char
  /-- Why the text breaks off behind these characters, if it does. -/
  break? : Option Failure := none

/-- A character that may stand in a text at all. -/
def isAdmitted (c : Char) : Bool :=
  let n := c.toNat
  n == 0x09 || n == 0x0a || n == 0x0d || (0x20 ≤ n && n ≤ 0x7e) || n == 0x85
    || (0xa0 ≤ n && n ≤ 0xd7ff) || (0xe000 ≤ n && n ≤ 0xfffd) || 0x10000 ≤ n

namespace Source

/-- The text in portions behind which it ends or breaks off. -/
def ofPortions (break? : Option Failure) : List (List Char) → Source
  | [] => ⟨[], break?⟩
  | portion :: others =>
    if portion.all isAdmitted then
      let s := ofPortions break? others
      { s with chars := portion ++ s.chars }
    else ⟨[], some .malformed⟩

/-- How many characters are fetched at a time. -/
def portionSize : Nat := 4096

/-- The text in the bytes of a file.  At the beginning two portions are
fetched at once. -/
def ofBytes (bytes : List UInt8) : Source :=
  let (reads, fault) := Text.readsOf portionSize bytes
  match reads, fault.map Failure.encoding with
  | [_], some f => ⟨[], some f⟩
  | first :: second :: others, f => ofPortions f ((first ++ second) :: others)
  | portions, f => ofPortions f portions

end Source

end Reckon.Yaml
