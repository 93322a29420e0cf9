import Reckon.Proofs.Progress
/-!
# Walks of a cursor

A walk is made of moves: back to the start, one character forward, eating a
text, scanning a class of characters (`Cursor.walk`).  A move leaves the cursor
placed in the source that it has, so the cursor is placed wherever a walk leads
(`Cursor.placed_walk`).

From any such place a move goes as far as the source says, and no further.  What
it passes is a `Run`: the characters from one position to another, all of a
class, and none of that class behind them.  Spaces are skipped to the end of
their run (`Cursor.Placed.eat_eq`) and a scan returns its run
(`Cursor.Placed.scan_eq`), also where there is nothing to pass because the
cursor is before its source or beyond it.  The main statement puts this together
(`Cursor.walk_keeps_place`).
-/

namespace Reckon.Cursor

/-! ### Moves -/

/-- The classes of characters that are scanned. -/
inductive CharClass where
  | numeric | alphabetic

/-- A character is of a class. -/
def CharClass.holds : CharClass → Char → Bool
  | .numeric => isNumeric
  | .alphabetic => isAlphabetic

/-- What can be asked of a cursor. -/
inductive Move where
  | reset
  | advance
  | eat (expected : List Char)
  | scan (kind : CharClass)

/-- The cursor that a move leaves behind. -/
def Move.apply : Move → Cursor → Cursor
  | .reset, c => c.reset
  | .advance, c => c.advance
  | .eat expected, c => (c.eat expected).2
  | .scan kind, c => (c.scan kind.holds).2

/-- A cursor over a source, after some moves. -/
def walk (source : String) (moves : List Move) : Cursor :=
  moves.foldl (fun c move => move.apply c) (ofSource source)

variable {c : Cursor}

theorem source_eat (c : Cursor) (expected : List Char) : (c.eat expected).2.source = c.source := by
  simp only [eat]
  split <;> rfl

theorem Move.source_apply (move : Move) (c : Cursor) : (move.apply c).source = c.source := by
  cases move with
  | reset => rfl
  | advance => rfl
  | eat expected => exact c.source_eat expected
  | scan kind => rfl

theorem Placed.apply (h : c.Placed) (move : Move) : (move.apply c).Placed := by
  cases move with
  | reset => exact placed_reset c
  | advance => exact placed_advance h
  | eat expected => exact placed_eat h expected
  | scan kind => exact placed_scan h kind.holds

/-- Wherever a walk leads, the cursor is placed in its source. -/
theorem placed_walk (source : String) (moves : List Move) :
    (walk source moves).Placed ∧ (walk source moves).source = source.toList := by
  suffices hstep : ∀ c : Cursor, c.Placed → c.source = source.toList →
      (moves.foldl (fun c move => move.apply c) c).Placed ∧
        (moves.foldl (fun c move => move.apply c) c).source = source.toList from
    hstep _ (placed_ofSource source) rfl
  induction moves with
  | nil => exact fun c hplaced hsource => ⟨hplaced, hsource⟩
  | cons move moves ih =>
      intro c hplaced hsource
      exact ih _ (hplaced.apply move) ((move.source_apply c).trans hsource)

/-- Only going back to the start takes a cursor back. -/
theorem pos_le_apply (c : Cursor) {move : Move} (h : move ≠ .reset) :
    c.pos ≤ (move.apply c).pos := by
  have hskip : ∀ run, c.pos ≤ (c.skip run).pos := fun run =>
    Int.le_add_of_nonneg_right (Int.natCast_nonneg _)
  cases move with
  | reset => exact absurd rfl h
  | advance => exact Int.le_add_of_nonneg_right (by decide)
  | eat expected =>
      simp only [Move.apply, eat]
      split
      · exact Int.le_trans (hskip _) (Int.le_add_of_nonneg_right (by decide))
      · exact hskip _
  | scan kind => exact hskip _

/-! ### What stands at a position -/

/-- The character at a position of a text.  There is none before the text, nor
beyond it. -/
def charAt (text : List Char) (i : Int) : Option Char :=
  if i < 0 then none else text[i.toNat]?

/-- Between two positions of a text there are characters of a class only, and
at the second there is none of it. -/
structure Run (text : List Char) (p : Char → Bool) (start stop : Int) : Prop where
  le : start ≤ stop
  inside : ∀ i, start ≤ i → i < stop → ∃ x, charAt text i = some x ∧ p x = true
  outside : ∀ x, charAt text stop = some x → p x = false

theorem charAt_eq_none_iff {text : List Char} {i : Int} :
    charAt text i = none ↔ i < 0 ∨ text.length ≤ i := by
  unfold charAt
  split
  · next hneg => exact iff_of_true rfl (.inl hneg)
  · next hneg =>
      rw [List.getElem?_eq_none_iff]
      omega

/-- A run that nothing follows ends with the text; beyond the end it is empty. -/
theorem Run.stop_eq {text : List Char} {p : Char → Bool} {start stop : Int}
    (h : Run text p start stop) (hstart : 0 ≤ start) (hstop : charAt text stop = none) :
    stop = max start text.length := by
  have hle := h.le
  have hbeyond : (text.length : Int) ≤ stop := by
    rcases charAt_eq_none_iff.mp hstop with hneg | hbeyond
    · omega
    · exact hbeyond
  rcases Int.lt_or_le (max start text.length) stop with hlt | hge
  · obtain ⟨x, hx, -⟩ := h.inside (stop - 1) (by omega) (by omega)
    have hnone : charAt text (stop - 1) = none := charAt_eq_none_iff.mpr (.inr (by omega))
    rw [hnone] at hx
    cases hx
  · omega

/-! ### What a placed cursor sees -/

namespace Placed

variable (h : c.Placed)

include h

/-- Current is the character at the position. -/
theorem current_eq : c.current = charAt c.source c.pos := by
  rw [current, h.rest_eq, charAt]
  split
  · rfl
  · exact List.head?_drop

/-- What lies `k` characters ahead of a place in the source. -/
theorem getElem?_rest (hpos : 0 ≤ c.pos) (k : Nat) : c.rest[k]? = charAt c.source (c.pos + k) := by
  have hplace : (c.pos + k).toNat = c.pos.toNat + k := by omega
  rw [h.rest_eq, if_neg (Int.not_lt.mpr hpos), List.getElem?_drop, charAt, if_neg (by omega),
    hplace]

/-- The run of a class that begins at the position. -/
theorem run (p : Char → Bool) :
    Run c.source p c.pos (c.pos + (c.rest.takeWhile p).length) := by
  have hsplit (k : Nat) : c.rest[k]? = (c.rest.takeWhile p ++ c.rest.dropWhile p)[k]? := by
    rw [List.takeWhile_append_dropWhile]
  by_cases hpos : 0 ≤ c.pos
  · refine ⟨by omega, fun i hle hlt => ?_, fun x hx => ?_⟩
    · obtain ⟨k, rfl⟩ : ∃ k : Nat, i = c.pos + k := ⟨(i - c.pos).toNat, by omega⟩
      have hk : k < (c.rest.takeWhile p).length := by omega
      refine ⟨(c.rest.takeWhile p)[k], ?_, of_mem_takeWhile _ (List.getElem_mem hk)⟩
      rw [← h.getElem?_rest hpos, hsplit, List.getElem?_append_left hk, List.getElem?_eq_getElem hk]
    · rw [← h.getElem?_rest hpos, hsplit, List.getElem?_append_right (Nat.le_refl _), Nat.sub_self,
        ← List.head?_eq_getElem?] at hx
      exact head?_dropWhile_ne hx
  · have hneg : c.pos < 0 := Int.not_le.mp hpos
    have hrest : c.rest = [] := by rw [h.rest_eq, if_pos hneg]
    have hzero : c.pos + (([] : List Char).takeWhile p).length = c.pos := Int.add_zero _
    rw [hrest, hzero]
    refine ⟨Int.le_refl _, fun i hle hlt => absurd hle (Int.not_le.mpr hlt), fun x hx => ?_⟩
    have hnone : charAt c.source c.pos = none := if_pos hneg
    cases hnone.symm.trans hx

/-- The characters between two positions. -/
theorem takeWhile_eq (p : Char → Bool) {stop : Int}
    (hstop : stop = c.pos + (c.rest.takeWhile p).length) :
    c.rest.takeWhile p = (c.source.drop c.pos.toNat).take (stop - c.pos).toNat := by
  have hlength : (stop - c.pos).toNat = (c.rest.takeWhile p).length := by omega
  rw [hlength, h.rest_eq]
  split
  · rfl
  · exact List.prefix_iff_eq_take.mp (List.takeWhile_prefix p)

/-- Spaces are skipped, and behind them the expected text is eaten if it is what
stands there. -/
theorem eat_eq (expected : List Char) : ∃ stop, Run c.source (· == ' ') c.pos stop ∧
    (c.eat expected).1 = decide ((charAt c.source stop).toList = expected) ∧
    (c.eat expected).2.pos =
      if (charAt c.source stop).toList = expected then stop + 1 else stop := by
  refine ⟨c.skipSpaces.pos, h.run _, ?_⟩
  have hcurrent : c.skipSpaces.current = charAt c.source c.skipSpaces.pos :=
    (placed_skipSpaces h).current_eq
  rw [← hcurrent, eat]
  split
  · next heaten => simp [heaten, advance]
  · next hleft => simp [hleft]

/-- A scan returns the run of its class and goes to its end. -/
theorem scan_eq (p : Char → Bool) : ∃ stop, Run c.source p c.pos stop ∧
    (c.scan p).1 = (c.source.drop c.pos.toNat).take (stop - c.pos).toNat ∧
    (c.scan p).2.pos = stop :=
  ⟨_, h.run p, h.takeWhile_eq p rfl, rfl⟩

/-- Where there is no character a cursor has nothing left. -/
theorem rest_eq_nil (hnone : charAt c.source c.pos = none) : c.rest = [] :=
  List.head?_eq_none_iff.mp (h.current_eq.trans hnone)

end Placed

/-! ### Wherever a walk leads -/

/-- What a cursor shows of its source, and where each move takes it from there. -/
structure KeepsPlace (text : List Char) (c : Cursor) : Prop where
  begun : -1 ≤ c.pos
  current : c.current = charAt text c.pos
  forward : ∀ move : Move, move ≠ .reset → c.pos ≤ (move.apply c).pos
  /-- Spaces are passed over to the first character that is none, and that one
  is eaten if it is the expected one.  If there is none, the cursor is at the
  end, or still where it was beyond it. -/
  eats : 0 ≤ c.pos → ∀ x, x ≠ ' ' → ∃ stop, Run text (· == ' ') c.pos stop ∧
    ((c.eat [x]).1 = true ↔ charAt text stop = some x) ∧
    (c.eat [x]).2.pos = (if charAt text stop = some x then stop + 1 else stop) ∧
    (charAt text stop = none → stop = max c.pos text.length)
  /-- Before the source nothing is eaten. -/
  unbegun : c.pos = -1 → ∀ expected, expected ≠ [] → c.eat expected = (false, c)
  /-- A space is skipped and never eaten, and only one character is current. -/
  refuses : ∀ expected, expected = [' '] ∨ 1 < expected.length → (c.eat expected).1 = false
  scans : ∀ kind : CharClass, ∃ stop, Run text kind.holds c.pos stop ∧
    (c.scan kind.holds).1 = (text.drop c.pos.toNat).take (stop - c.pos).toNat ∧
    (c.scan kind.holds).2.pos = stop
  /-- Where there is no character, none is scanned. -/
  idle : ∀ kind : CharClass, charAt text c.pos = none → c.scan kind.holds = ([], c)

/-- A character is current if it stands at the position. -/
theorem toList_charAt_eq {text : List Char} {i : Int} {x : Char} :
    (charAt text i).toList = [x] ↔ charAt text i = some x := by
  cases charAt text i <;> simp

/-- A space, and any text of more than one character, is never current behind
spaces. -/
theorem toList_charAt_ne {text expected : List Char} {start stop : Int}
    (h : Run text (· == ' ') start stop) (hexpected : expected = [' '] ∨ 1 < expected.length) :
    (charAt text stop).toList ≠ expected := by
  intro heq
  rcases hexpected with rfl | hlong
  · have hspace := h.outside ' ' (toList_charAt_eq.mp heq)
    cases hspace
  · have hshort : (charAt text stop).toList.length ≤ 1 := by
      cases charAt text stop <;> simp
    rw [heq] at hshort
    omega

theorem Placed.keepsPlace (h : c.Placed) : c.KeepsPlace c.source where
  begun := h.pos_ge
  current := h.current_eq
  forward move hmove := c.pos_le_apply hmove
  eats hpos x hx := by
    obtain ⟨stop, hrun, hfound, hplace⟩ := h.eat_eq [x]
    simp only [toList_charAt_eq] at hfound hplace
    exact ⟨stop, hrun, by simp [hfound], hplace, hrun.stop_eq hpos⟩
  unbegun hpos expected hexpected := by
    have hnone : charAt c.source c.pos = none := charAt_eq_none_iff.mpr (.inl (by omega))
    have hrest := h.rest_eq_nil hnone
    have hskip : c.skipSpaces = c := skipSpaces_of_head?_ne (by simp [hrest])
    have hcurrent : c.current.toList ≠ expected := by
      simpa [Cursor.current, hrest] using hexpected.symm
    rw [eat, hskip, if_neg hcurrent]
  refuses expected hexpected := by
    obtain ⟨stop, hrun, hfound, -⟩ := h.eat_eq expected
    rw [hfound]
    exact decide_eq_false (toList_charAt_ne hrun hexpected)
  scans kind := h.scan_eq kind.holds
  idle kind hnone := by
    have hskip : c.skip [] = c := by
      cases c
      simp [skip]
    rw [scan, h.rest_eq_nil hnone]
    exact Prod.ext rfl hskip

/-- **A cursor never loses its place.**  After any moves from a fresh cursor, it
shows the character at its position, and every further move goes exactly as far
as the source says. -/
theorem walk_keeps_place (source : String) (moves : List Move) :
    (walk source moves).KeepsPlace source.toList := by
  obtain ⟨hplaced, hsource⟩ := placed_walk source moves
  rw [← hsource]
  exact hplaced.keepsPlace

end Reckon.Cursor
