import Reckon.Proofs.Progress
/-!
# Spaces between tokens

Spaces may be put into a source anywhere but inside of a run of digits and
points or of letters (`Spaced`).  This module says which positions of the two
sources belong together, what it is for trees and errors to be the same but for
positions, and how two cursors stand to each other that read the one source and
the other.

They are `Near` each other if what is left of the one source is left of the
other with spaces put in.  Behind skipped spaces they are `Facing` the same
character, or the end.
-/

namespace Reckon

/-! ### Texts -/

/-- Two neighbours belong to one run, of digits and points or of letters. -/
def Joined (c d : Char) : Prop :=
  (Cursor.isNumeric c ∧ Cursor.isNumeric d) ∨ (Cursor.isAlphabetic c ∧ Cursor.isAlphabetic d)

/-- The second text is the first with spaces put in, none of them inside of a
run. -/
inductive Spaced : List Char → List Char → Prop
  | done : Spaced [] []
  | gap {cs ds : List Char} (rest : Spaced cs ds) : Spaced cs (' ' :: ds)
  /-- What is joined stays together. -/
  | keep {c : Char} {cs ds : List Char} (rest : Spaced cs ds)
      (hrun : ∀ d, cs.head? = some d → Joined c d → ds.head? = some d) : Spaced (c :: cs) (c :: ds)

/-- The characters of a text that are not spaces. -/
def inked (cs : List Char) : List Char :=
  cs.filter (· ≠ ' ')

namespace Spaced

variable {cs ds : List Char} {c : Char}

/-- Spaces put in leave all other characters. -/
theorem inked_eq (h : Spaced cs ds) : inked cs = inked ds := by
  induction h with
  | done => rfl
  | gap rest ih => simpa [inked] using ih
  | keep rest hrun ih => simp only [inked, List.filter_cons] at ih ⊢; rw [ih]

/-- Behind the same character that is no space the rests are spaced as well. -/
theorem of_cons (h : Spaced (c :: cs) (c :: ds)) (hc : c ≠ ' ') :
    Spaced cs ds ∧ ∀ d, cs.head? = some d → Joined c d → ds.head? = some d := by
  cases h with
  | gap => exact absurd rfl hc
  | keep rest hrun => exact ⟨rest, hrun⟩

/-- Behind the spaces in front the rests are spaced as well. -/
theorem behindSpaces (h : Spaced cs ds) : Spaced (behindSpaces cs) (behindSpaces ds) := by
  induction h with
  | done => exact .done
  | gap rest ih => simpa [Reckon.behindSpaces] using ih
  | @keep c cs ds rest hrun ih =>
      by_cases hc : c = ' '
      · simpa [Reckon.behindSpaces, hc] using ih
      · simpa [Reckon.behindSpaces, hc] using Spaced.keep rest hrun

/-- Behind the spaces stands the same character in both texts, or none. -/
theorem opposite (h : Spaced cs ds) (hcs : cs.head? ≠ some ' ') (hds : ds.head? ≠ some ' ') :
    (cs = [] ∧ ds = []) ∨ ∃ c cs' ds', c ≠ ' ' ∧ cs = c :: cs' ∧ ds = c :: ds' := by
  cases h with
  | done => exact Or.inl ⟨rfl, rfl⟩
  | gap => exact absurd rfl hds
  | @keep c cs ds rest hrun => exact Or.inr ⟨c, cs, ds, by simpa using hcs, rfl, rfl⟩

/-- A run stays whole, unless a space was put in front of it. -/
theorem run {p : Char → Bool} (hspace : p ' ' = false)
    (hjoined : ∀ c d, p c = true → p d = true → Joined c d) (h : Spaced cs ds)
    (hhead : ∀ d, cs.head? = some d → p d = true → ds.head? = some d) :
    cs.takeWhile p = ds.takeWhile p ∧ Spaced (cs.dropWhile p) (ds.dropWhile p) := by
  induction h with
  | done => exact ⟨rfl, .done⟩
  | @gap cs ds rest _ =>
      have hstop : ∀ d, cs.head? = some d → p d = false := by
        intro d hd
        rw [Bool.eq_false_iff]
        intro hp
        cases hhead d hd hp
        exact absurd hp (by simp [hspace])
      have htake : ([] ++ cs).takeWhile p = [] := takeWhile_run_append (by simp) hstop
      have hdrop : ([] ++ cs).dropWhile p = cs := dropWhile_run_append (by simp) hstop
      rw [List.nil_append] at htake hdrop
      rw [htake, hdrop]
      simpa [hspace] using Spaced.gap rest
  | @keep c cs ds rest hrun ih =>
      by_cases hc : p c = true
      · obtain ⟨htake, hdrop⟩ := ih fun d hd hp => hrun d hd (hjoined c d hc hp)
        simp only [List.takeWhile_cons_of_pos hc, List.dropWhile_cons_of_pos hc, htake]
        exact ⟨trivial, hdrop⟩
      · simpa [hc] using Spaced.keep rest hrun

end Spaced

/-! ### Places in the two texts -/

section Places

variable (s t : List Char)

/-- The positions `p` in `s` and `q` in `t` hold the same character, which is no
space, with the same characters and any spaces before it. -/
def SameCharacter (p q : Int) : Prop :=
  ∃ i j : Nat, p = i ∧ q = j ∧ inked (s.take i) = inked (t.take j) ∧
    ∃ c, c ≠ ' ' ∧ s[i]? = some c ∧ t[j]? = some c

/-- Two positions hold the same character, or both are the end. -/
def SamePlace (p q : Int) : Prop :=
  SameCharacter s t p q ∨ (p = s.length ∧ q = t.length)

end Places

/-! ### What moves with the spaces -/

/-- The second tree is the first with its positions moved.  Captured producers
belong to other sources. -/
def Expr.Moved (R : Int → Int → Prop) : Expr → Expr → Prop
  | .constant p x, .constant q y => R p q ∧ x = y
  | .supplied p supplier label, .supplied q supplier' label' =>
    R p q ∧ supplier = supplier' ∧ label = label'
  | .method p name, .method q name' => R p q ∧ name = name'
  | .reference p name producer, .reference q name' producer' =>
    R p q ∧ name = name' ∧ producer = producer'
  | .unary p op operand, .unary q op' operand' => R p q ∧ op = op' ∧ operand.Moved R operand'
  | .binary p op left right, .binary q op' left' right' =>
    R p q ∧ op = op' ∧ left.Moved R left' ∧ right.Moved R right'
  | .call p name argument, .call q name' argument' =>
    R p q ∧ name = name' ∧ argument.Moved R argument'
  | .bare p, .bare q => R p q
  | .absent, .absent => True
  | _, _ => False

/-- The second fault is the first, but for the place of an opened group. -/
def ParseFault.Moved (R : Int → Int → Prop) : ParseFault → ParseFault → Prop
  | .unclosedGroup opened, .unclosedGroup opened' => R opened opened'
  | fault, fault' => fault = fault'

/-- The second error is the first at the same place.  Where factors nest too
deeply, the place may lie before spaces or behind them. -/
structure ParseError.Moved (s t : List Char) (e e' : ParseError) : Prop where
  fault : e.fault.Moved (SameCharacter s t) e'.fault
  place : e.fault.kind ≠ .nestingTooDeep → SamePlace s t e.position e'.position

/-- A fault that is moved keeps its kind. -/
theorem ParseFault.Moved.kind_eq {R : Int → Int → Prop} {fault fault' : ParseFault}
    (h : fault.Moved R fault') : fault.kind = fault'.kind := by
  cases fault <;> cases fault' <;> simp_all [Moved, kind]

/-- A fault that is moved keeps its name. -/
theorem ParseFault.Moved.name?_eq {R : Int → Int → Prop} {fault fault' : ParseFault}
    (h : fault.Moved R fault') : fault.name? = fault'.name? := by
  cases fault <;> cases fault' <;> simp_all [Moved, name?]

/-! ### Cursors -/

section Cursors

variable (s t : List Char)

/-- What is left behind the one cursor is left behind the other with spaces put
in. -/
structure Near (c d : Cursor) : Prop where
  started : c.Started
  started' : d.Started
  source_eq : c.source = s
  source_eq' : d.source = t
  within : c.pos ≤ s.length
  within' : d.pos ≤ t.length
  spaced : Spaced c.rest d.rest

/-- The cursors stand before the same character, which is no space, or at the
end. -/
structure Facing (c d : Cursor) : Prop where
  near : Near s t c d
  opposite : (c.rest = [] ∧ d.rest = []) ∨
    ∃ x cs ds, x ≠ ' ' ∧ c.rest = x :: cs ∧ d.rest = x :: ds

variable {s t} {c d c' d' : Cursor}

/-- Cursors ahead of near ones are near if what is left is spaced. -/
theorem Near.ahead (h : Near s t c d) (hc : c.Ahead c') (hd : d.Ahead d')
    (hspaced : Spaced c'.rest d'.rest) : Near s t c' d' := by
  have hwithin := hc.within (by rw [h.source_eq]; exact h.within)
  have hwithin' := hd.within (by rw [h.source_eq']; exact h.within')
  rw [hc.source_eq, h.source_eq] at hwithin
  rw [hd.source_eq, h.source_eq'] at hwithin'
  exact ⟨hc.started, hd.started, hc.source_eq.trans h.source_eq,
    hd.source_eq.trans h.source_eq', hwithin, hwithin', hspaced⟩

/-- Where the same character is left, it is the same character of the texts. -/
theorem Near.sameCharacter (h : Near s t c d) (hst : Spaced s t) {x : Char} {cs ds : List Char}
    (hx : x ≠ ' ') (hc : c.rest = x :: cs) (hd : d.rest = x :: ds) :
    SameCharacter s t c.pos d.pos := by
  have hrest := h.started.rest_eq
  have hrest' := h.started'.rest_eq
  rw [h.source_eq] at hrest
  rw [h.source_eq'] at hrest'
  refine ⟨c.pos.toNat, d.pos.toNat, ?_, ?_, ?_, x, hx, ?_, ?_⟩
  · exact (Int.toNat_of_nonneg h.started.begun).symm
  · exact (Int.toNat_of_nonneg h.started'.begun).symm
  · have hsplit : ∀ cs : List Char, ∀ n, inked (cs.take n) ++ inked (cs.drop n) = inked cs := by
      intro cs n
      rw [inked, inked, ← List.filter_append, List.take_append_drop, inked]
    -- What is left holds the same characters, so what lies before does.
    have hall : inked (s.take c.pos.toNat) ++ inked c.rest =
        inked (t.take d.pos.toNat) ++ inked c.rest := by
      calc inked (s.take c.pos.toNat) ++ inked c.rest = inked s := by rw [hrest, hsplit]
        _ = inked t := hst.inked_eq
        _ = inked (t.take d.pos.toNat) ++ inked d.rest := by rw [hrest', hsplit]
        _ = inked (t.take d.pos.toNat) ++ inked c.rest := by rw [h.spaced.inked_eq]
    exact List.append_cancel_right hall
  · rw [← h.source_eq, h.started.getElem?_pos, hc, List.head?_cons]
  · rw [← h.source_eq', h.started'.getElem?_pos, hd, List.head?_cons]

/-- Cursors that face each other look at the same character, or both at the end. -/
theorem Facing.head?_eq (h : Facing s t c d) : c.rest.head? = d.rest.head? := by
  rcases h.opposite with ⟨hc, hd⟩ | ⟨x, cs, ds, -, hc, hd⟩
  · rw [hc, hd]
  · rw [hc, hd, List.head?_cons, List.head?_cons]

/-- Cursors that face each other are at the same place. -/
theorem Facing.samePlace (h : Facing s t c d) (hst : Spaced s t) : SamePlace s t c.pos d.pos := by
  rcases h.opposite with ⟨hc, hd⟩ | ⟨x, cs, ds, hx, hc, hd⟩
  · have hle := of_decide_eq_true (h.near.started.atEnd_iff.mpr hc)
    have hle' := of_decide_eq_true (h.near.started'.atEnd_iff.mpr hd)
    rw [h.near.source_eq] at hle
    rw [h.near.source_eq'] at hle'
    exact Or.inr ⟨Int.le_antisymm h.near.within hle, Int.le_antisymm h.near.within' hle'⟩
  · exact Or.inl (h.near.sameCharacter hst hx hc hd)

/-- Behind the spaces the cursors face each other. -/
theorem Near.skipSpaces (h : Near s t c d) : Facing s t c.skipSpaces d.skipSpaces := by
  have hspaced := h.spaced.behindSpaces
  have hopposite := hspaced.opposite (head?_behindSpaces_ne _) (head?_behindSpaces_ne _)
  rw [← c.rest_skipSpaces, ← d.rest_skipSpaces] at hspaced hopposite
  exact ⟨h.ahead (.ahead_skipSpaces h.started) (.ahead_skipSpaces h.started') hspaced, hopposite⟩

/-- Past the same character cursors stay near. -/
theorem Near.advance (h : Near s t c d) {x : Char} {cs ds : List Char} (hx : x ≠ ' ')
    (hc : c.rest = x :: cs) (hd : d.rest = x :: ds) : Near s t c.advance d.advance := by
  have hspaced := h.spaced
  rw [hc, hd] at hspaced
  refine h.ahead (.ahead_advance h.started hc) (.ahead_advance h.started' hd) ?_
  rw [h.started.rest_advance, h.started'.rest_advance, hc, hd]
  exact (hspaced.of_cons hx).1

/-- Where the same character begins a run, the runs are the same. -/
theorem Near.scan (h : Near s t c d) {p : Char → Bool} (hspace : p ' ' = false)
    (hjoined : ∀ c d, p c = true → p d = true → Joined c d) {x : Char} {cs ds : List Char}
    (hc : c.rest = x :: cs) (hd : d.rest = x :: ds) :
    (c.scan p).1 = (d.scan p).1 ∧ Near s t (c.scan p).2 (d.scan p).2 := by
  obtain ⟨htake, hdrop⟩ := h.spaced.run hspace hjoined fun y hy _ => by
    rw [hd, ← hy, hc, List.head?_cons, List.head?_cons]
  rw [← c.rest_scan, ← d.rest_scan] at hdrop
  exact ⟨htake, h.ahead (.ahead_scan h.started p) (.ahead_scan h.started' p) hdrop⟩

end Cursors

end Reckon
