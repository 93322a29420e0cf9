import Reckon.Text.Quoted
/-!
# The cursor

A cursor walks over a source one character at a time.  A fresh cursor stands
before the first character, at position −1; `advance` moves it on, also beyond
the end.  There is a current character only while the position lies inside the
source.  Between tokens only the plain space is skipped, and only `eat` skips
it: it keeps the skip even when the expected text is not there.

Every operation leaves the cursor `Placed`: its position is at least −1, and
what it holds as the rest is the source from that position on.
-/

namespace Reckon

/-- A source and a place in it.  `rest` holds the characters from the position
to the end; before the first character it is empty, as nothing is current
there. -/
structure Cursor where
  source : List Char
  pos : Int
  rest : List Char
deriving DecidableEq

namespace Cursor

/-- A cursor before the first character of a source. -/
def ofSource (source : String) : Cursor :=
  ⟨source.toList, -1, []⟩

/-- Back to before the first character. -/
def reset (c : Cursor) : Cursor :=
  { c with pos := -1, rest := [] }

/-- The character at the position, if there is one. -/
def current (c : Cursor) : Option Char :=
  c.rest.head?

/-- One position forward. -/
def advance (c : Cursor) : Cursor :=
  { c with pos := c.pos + 1, rest := if c.pos < 0 then c.source else c.rest.tail }

/-- Forward by as many characters as `run` holds, a run of the rest. -/
def skip (c : Cursor) (run : List Char) : Cursor :=
  { c with pos := c.pos + run.length, rest := c.rest.drop run.length }

/-- Past the spaces at the position. -/
def skipSpaces (c : Cursor) : Cursor :=
  c.skip (c.rest.takeWhile (· == ' '))

/-- Skips spaces, then consumes the expected text if it is the current
character; the empty text is current where no character is.  Any other text
is never current. -/
def eat (expected : List Char) (c : Cursor) : Bool × Cursor :=
  let c := c.skipSpaces
  if c.current.toList = expected then (true, c.advance) else (false, c)

/-- Consumes the longest run of characters of a class and returns it. -/
def scan (p : Char → Bool) (c : Cursor) : List Char × Cursor :=
  let run := c.rest.takeWhile p
  (run, c.skip run)

/-- The position is past the last character. -/
def atEnd (c : Cursor) : Bool :=
  (c.source.length : Int) ≤ c.pos

/-- A character of numerals: an ASCII digit or a point. -/
def isNumeric (c : Char) : Bool :=
  ('0' ≤ c && c ≤ '9') || c == '.'

/-- A character of names: a small ASCII letter. -/
def isAlphabetic (c : Char) : Bool :=
  'a' ≤ c && c ≤ 'z'

/-- The current character as text, empty where there is none. -/
def currentText (c : Cursor) : String :=
  String.ofList c.current.toList

/-- The place and the current character, for display. -/
def describe (c : Cursor) : String :=
  "Cursor(pos=" ++ toString c.pos ++ ", current=" ++ Text.quoted c.currentText ++ ")"

/-! ### The place of a cursor -/

/-- The rest is what the source holds from the position on. -/
structure Placed (c : Cursor) : Prop where
  pos_ge : -1 ≤ c.pos
  rest_eq : c.rest = if c.pos < 0 then [] else c.source.drop c.pos.toNat

/-- A new cursor is placed before its source. -/
theorem placed_ofSource (source : String) : (ofSource source).Placed :=
  ⟨by simp [ofSource], by simp [ofSource]⟩

/-- A reset places the cursor before its source. -/
theorem placed_reset (c : Cursor) : c.reset.Placed :=
  ⟨by simp [reset], by simp [reset]⟩

/-- A step keeps the cursor placed. -/
theorem placed_advance {c : Cursor} (h : c.Placed) : c.advance.Placed := by
  obtain ⟨hpos, hrest⟩ := h
  constructor
  · simp only [advance]
    omega
  · by_cases hneg : c.pos < 0
    · have hstart : c.pos + 1 = 0 := by omega
      simp [advance, hneg, hstart]
    · have hstill : ¬ c.pos + 1 < 0 := by omega
      have hnext : (c.pos + 1).toNat = c.pos.toNat + 1 := by omega
      simp [advance, hneg, hstill, hnext, hrest]

/-- Skipping a run of the rest: before the first character there is no run. -/
theorem placed_skip {c : Cursor} (h : c.Placed) {run : List Char}
    (hrun : run.length ≤ c.rest.length) : (c.skip run).Placed := by
  obtain ⟨hpos, hrest⟩ := h
  by_cases hneg : c.pos < 0
  · have hnil : c.rest = [] := by simpa [hneg] using hrest
    have hempty : run.length = 0 := by simpa [hnil] using hrun
    exact ⟨by simp [skip, hempty, hpos], by simp [skip, hempty, hneg, hnil]⟩
  · constructor
    · simp only [skip]
      omega
    · have hstill : ¬ c.pos + run.length < 0 := by omega
      have hnext : (c.pos + run.length).toNat = c.pos.toNat + run.length := by omega
      simp [skip, hneg, hstill, hnext, hrest]

private theorem length_takeWhile_le (p : Char → Bool) (cs : List Char) :
    (cs.takeWhile p).length ≤ cs.length :=
  (List.takeWhile_sublist p).length_le

/-- Skipping spaces keeps the cursor placed. -/
theorem placed_skipSpaces {c : Cursor} (h : c.Placed) : c.skipSpaces.Placed :=
  placed_skip h (length_takeWhile_le _ _)

/-- To eat keeps the cursor placed. -/
theorem placed_eat {c : Cursor} (h : c.Placed) (expected : List Char) :
    (c.eat expected).2.Placed := by
  have hs := placed_skipSpaces h
  simp only [eat]
  split
  · exact placed_advance hs
  · exact hs

/-- To scan keeps the cursor placed. -/
theorem placed_scan {c : Cursor} (h : c.Placed) (p : Char → Bool) : (c.scan p).2.Placed :=
  placed_skip h (length_takeWhile_le _ _)

end Cursor

end Reckon
