import Reckon.Cursor
import Reckon.Double.Numeral
/-!
# How tokens are spelled

A source is made of tokens: single marks, numerals and names, with any number
of plain spaces around them.  A numeral or a name is a *maximal* run of its
class of characters, so a text spells at most one list of tokens
(`Spells.unique`).

A run of digits and points is a numeral exactly when it has a value as a
double (`isSome_ofNumeral?`).
-/

namespace Reckon

/-- A token of a source. -/
inductive Token where
  | mark (c : Char)
  | numeral (text : List Char)
  | name (text : List Char)
deriving DecidableEq, Repr

/-- The characters that are tokens by themselves. -/
def marks : List Char :=
  ['+', '-', '*', '/', '^', '(', ')']

/-- A numeral holds digits and points only: at least one digit, at most one
point. -/
structure IsNumeral (text : List Char) : Prop where
  numeric : ∀ c ∈ text, Cursor.isNumeric c
  digit : ∃ c ∈ text, c ≠ '.'
  point : text.count '.' ≤ 1

/-- A name is a run of small letters. -/
structure IsName (text : List Char) : Prop where
  nonempty : text ≠ []
  alphabetic : ∀ c ∈ text, Cursor.isAlphabetic c

/-- A text spells a list of tokens.  What `takeWhile` finds at the head of a
text is the maximal run that starts there. -/
inductive Spells : List Char → List Token → Prop
  | done : Spells [] []
  | space {cs : List Char} {ts : List Token} (rest : Spells cs ts) : Spells (' ' :: cs) ts
  | mark {c : Char} {cs : List Char} {ts : List Token} (hc : c ∈ marks) (rest : Spells cs ts) :
      Spells (c :: cs) (.mark c :: ts)
  | numeral {cs : List Char} {ts : List Token} (hrun : IsNumeral (cs.takeWhile Cursor.isNumeric))
      (rest : Spells (cs.dropWhile Cursor.isNumeric) ts) :
      Spells cs (.numeral (cs.takeWhile Cursor.isNumeric) :: ts)
  | name {cs : List Char} {ts : List Token} (hrun : IsName (cs.takeWhile Cursor.isAlphabetic))
      (rest : Spells (cs.dropWhile Cursor.isAlphabetic) ts) :
      Spells cs (.name (cs.takeWhile Cursor.isAlphabetic) :: ts)

/-! ### Classes of characters -/

theorem isNumeric_iff {c : Char} :
    Cursor.isNumeric c = true ↔ ('0' ≤ c ∧ c ≤ '9') ∨ c = '.' := by
  simp [Cursor.isNumeric]

theorem isAlphabetic_iff {c : Char} : Cursor.isAlphabetic c = true ↔ 'a' ≤ c ∧ c ≤ 'z' := by
  simp [Cursor.isAlphabetic]

/-- A character of numerals is no character of names. -/
theorem isAlphabetic_of_isNumeric {c : Char} (h : Cursor.isNumeric c = true) :
    Cursor.isAlphabetic c = false := by
  rw [Bool.eq_false_iff, ne_eq, isAlphabetic_iff]
  rintro ⟨hlow, -⟩
  rcases isNumeric_iff.mp h with ⟨-, hhigh⟩ | rfl
  · exact absurd (Char.le_trans hlow hhigh) (by decide)
  · exact absurd hlow (by decide)

/-- A mark belongs to no run. -/
theorem class_of_mem_marks {c : Char} (h : c ∈ marks) :
    c ≠ ' ' ∧ Cursor.isNumeric c = false ∧ Cursor.isAlphabetic c = false := by
  simp only [marks, List.mem_cons, List.not_mem_nil, or_false] at h
  rcases h with rfl | rfl | rfl | rfl | rfl | rfl | rfl <;> decide

/-- A run holds characters of its class only. -/
theorem of_mem_takeWhile {p : Char → Bool} {cs : List Char} :
    ∀ c ∈ cs.takeWhile p, p c = true :=
  List.all_eq_true.mp List.all_takeWhile

theorem head_of_takeWhile_ne_nil {p : Char → Bool} {cs : List Char} (h : cs.takeWhile p ≠ []) :
    ∃ c rest, cs = c :: rest ∧ p c = true := by
  cases cs with
  | nil => exact absurd rfl h
  | cons c rest =>
      by_cases hc : p c = true
      · exact ⟨c, rest, rfl, hc⟩
      · exact absurd (by simp [hc]) h

/-- A numeral begins with one of its characters. -/
theorem IsNumeral.head {cs : List Char} (h : IsNumeral (cs.takeWhile Cursor.isNumeric)) :
    ∃ c rest, cs = c :: rest ∧ Cursor.isNumeric c = true := by
  obtain ⟨d, hd, -⟩ := h.digit
  exact head_of_takeWhile_ne_nil (List.ne_nil_of_mem hd)

/-- A name begins with a letter. -/
theorem IsName.head {cs : List Char} (h : IsName (cs.takeWhile Cursor.isAlphabetic)) :
    ∃ c rest, cs = c :: rest ∧ Cursor.isAlphabetic c = true :=
  head_of_takeWhile_ne_nil h.nonempty

/-! ### Reading off the first token -/

/-- The text behind the spaces at its head. -/
def behindSpaces (cs : List Char) : List Char :=
  cs.dropWhile (· == ' ')

theorem head?_behindSpaces_ne (cs : List Char) : (behindSpaces cs).head? ≠ some ' ' := by
  intro h
  have hnot := List.head?_dropWhile_not (p := (· == ' ')) (l := cs)
  rw [show cs.dropWhile (· == ' ') = behindSpaces cs from rfl, h] at hnot
  simp at hnot

/-- Where no space stands there is nothing to skip. -/
theorem behindSpaces_of_head?_ne {cs : List Char} (h : cs.head? ≠ some ' ') :
    behindSpaces cs = cs := by
  cases cs with
  | nil => rfl
  | cons c cs =>
      have hc : c ≠ ' ' := by simpa using h
      simp [behindSpaces, hc]

/-- The spaces at the head of a text, and what is behind them. -/
theorem exists_gap (cs : List Char) :
    ∃ gap, (∀ c ∈ gap, c = ' ') ∧ cs = gap ++ behindSpaces cs := by
  refine ⟨cs.takeWhile (· == ' '), fun c hc => ?_, List.takeWhile_append_dropWhile.symm⟩
  exact beq_iff_eq.mp (of_mem_takeWhile c hc)

/-- Spaces in front spell nothing. -/
theorem Spells.spaces_append {gap cs : List Char} {ts : List Token} (hgap : ∀ c ∈ gap, c = ' ')
    (h : Spells cs ts) : Spells (gap ++ cs) ts := by
  induction gap with
  | nil => exact h
  | cons c gap ih =>
      obtain ⟨rfl, hrest⟩ := List.forall_mem_cons.mp hgap
      exact .space (ih hrest)

theorem Spells.behindSpaces {cs : List Char} {ts : List Token} (h : Spells cs ts) :
    Spells (behindSpaces cs) ts := by
  induction h with
  | done => exact .done
  | space rest ih => exact ih
  | @mark c cs ts hc rest ih =>
      have hne := (class_of_mem_marks hc).1
      simpa [Reckon.behindSpaces, hne] using Spells.mark hc rest
  | @numeral cs ts hrun rest ih =>
      obtain ⟨c, tail, rfl, hc⟩ := hrun.head
      have hne : c ≠ ' ' := by rintro rfl; exact absurd hc (by decide)
      simpa [Reckon.behindSpaces, hne] using Spells.numeral hrun rest
  | @name cs ts hrun rest ih =>
      obtain ⟨c, tail, rfl, hc⟩ := hrun.head
      have hne : c ≠ ' ' := by rintro rfl; exact absurd hc (by decide)
      simpa [Reckon.behindSpaces, hne] using Spells.name hrun rest

section NoSpace

variable {cs : List Char} {ts : List Token} (hhead : cs.head? ≠ some ' ')

include hhead

/-- Only the empty text spells nothing. -/
theorem Spells.eq_nil_of_nil (h : Spells cs []) : cs = [] := by
  cases h with
  | done => rfl
  | space rest => exact absurd rfl hhead

/-- A text whose first token is a mark begins with it. -/
theorem Spells.mark_inv {c : Char} (h : Spells cs (.mark c :: ts)) :
    ∃ rest, cs = c :: rest ∧ Spells rest ts := by
  cases h with
  | space rest => exact absurd rfl hhead
  | mark hc rest => exact ⟨_, rfl, rest⟩

/-- A text whose first token is a numeral begins with that run. -/
theorem Spells.numeral_inv {text : List Char} (h : Spells cs (.numeral text :: ts)) :
    cs.takeWhile Cursor.isNumeric = text ∧ IsNumeral text ∧
      Spells (cs.dropWhile Cursor.isNumeric) ts := by
  cases h with
  | space rest => exact absurd rfl hhead
  | numeral hrun rest => exact ⟨rfl, hrun, rest⟩

/-- A text whose first token is a name begins with that run. -/
theorem Spells.name_inv {text : List Char} (h : Spells cs (.name text :: ts)) :
    cs.takeWhile Cursor.isAlphabetic = text ∧ IsName text ∧
      Spells (cs.dropWhile Cursor.isAlphabetic) ts := by
  cases h with
  | space rest => exact absurd rfl hhead
  | name hrun rest => exact ⟨rfl, hrun, rest⟩

end NoSpace

/-- What a text can spell is decided by its first character. -/
theorem Spells.cons_inv {c : Char} {cs : List Char} {ts : List Token} (h : Spells (c :: cs) ts) :
    (c = ' ' ∧ Spells cs ts) ∨
    (c ∈ marks ∧ ∃ us, ts = .mark c :: us ∧ Spells cs us) ∨
    (Cursor.isNumeric c = true ∧
      ∃ us, ts = .numeral ((c :: cs).takeWhile Cursor.isNumeric) :: us ∧
        Spells ((c :: cs).dropWhile Cursor.isNumeric) us) ∨
    (Cursor.isAlphabetic c = true ∧
      ∃ us, ts = .name ((c :: cs).takeWhile Cursor.isAlphabetic) :: us ∧
        Spells ((c :: cs).dropWhile Cursor.isAlphabetic) us) := by
  cases h with
  | space rest => exact Or.inl ⟨rfl, rest⟩
  | mark hc rest => exact Or.inr (Or.inl ⟨hc, _, rfl, rest⟩)
  | numeral hrun rest =>
      obtain ⟨d, tail, heq, hd⟩ := hrun.head
      obtain ⟨rfl, rfl⟩ := List.cons.inj heq
      exact Or.inr (Or.inr (Or.inl ⟨hd, _, rfl, rest⟩))
  | name hrun rest =>
      obtain ⟨d, tail, heq, hd⟩ := hrun.head
      obtain ⟨rfl, rfl⟩ := List.cons.inj heq
      exact Or.inr (Or.inr (Or.inr ⟨hd, _, rfl, rest⟩))

theorem Spells.nil_inv {ts : List Token} (h : Spells [] ts) : ts = [] := by
  cases h with
  | done => rfl
  | numeral hrun rest => obtain ⟨c, tail, heq, -⟩ := hrun.head; cases heq
  | name hrun rest => obtain ⟨c, tail, heq, -⟩ := hrun.head; cases heq

/-- **A text spells at most one list of tokens.** -/
theorem Spells.unique {cs : List Char} {ts us : List Token} (h : Spells cs ts)
    (h' : Spells cs us) : ts = us := by
  induction h generalizing us with
  | done => exact h'.nil_inv.symm
  | space rest ih =>
      obtain ⟨-, hrest⟩ | ⟨hc, -⟩ | ⟨hc, -⟩ | ⟨hc, -⟩ := h'.cons_inv
      · exact ih hrest
      all_goals exact absurd hc (by decide)
  | mark hc rest ih =>
      obtain ⟨hne, hnum, halpha⟩ := class_of_mem_marks hc
      obtain ⟨hspace, -⟩ | ⟨-, vs, rfl, hrest⟩ | ⟨hn, -⟩ | ⟨ha, -⟩ := h'.cons_inv
      · exact absurd hspace hne
      · rw [ih hrest]
      · exact absurd hn (by simp [hnum])
      · exact absurd ha (by simp [halpha])
  | numeral hrun rest ih =>
      obtain ⟨c, tail, rfl, hc⟩ := hrun.head
      obtain ⟨rfl, -⟩ | ⟨hm, -⟩ | ⟨-, vs, rfl, hrest⟩ | ⟨ha, -⟩ := h'.cons_inv
      · exact absurd hc (by decide)
      · exact absurd hc (by simp [(class_of_mem_marks hm).2.1])
      · rw [ih hrest]
      · exact absurd ha (by simp [isAlphabetic_of_isNumeric hc])
  | name hrun rest ih =>
      obtain ⟨c, tail, rfl, hc⟩ := hrun.head
      obtain ⟨rfl, -⟩ | ⟨hm, -⟩ | ⟨hn, -⟩ | ⟨-, vs, rfl, hrest⟩ := h'.cons_inv
      · exact absurd hc (by decide)
      · exact absurd hc (by simp [(class_of_mem_marks hm).2.2])
      · exact absurd hc (by simp [isAlphabetic_of_isNumeric hn])
      · rw [ih hrest]

/-- Every token takes at least one character. -/
theorem Spells.length_le {cs : List Char} {ts : List Token} (h : Spells cs ts) :
    ts.length ≤ cs.length := by
  have hrun : ∀ (p : Char → Bool) (cs : List Char), cs.takeWhile p ≠ [] →
      (cs.dropWhile p).length < cs.length := by
    intro p cs hne
    have hpos := List.length_pos_iff.mpr hne
    have hsum := congrArg List.length (List.takeWhile_append_dropWhile (p := p) (l := cs))
    rw [List.length_append] at hsum
    omega
  induction h with
  | done => exact Nat.le_refl _
  | space rest ih => exact Nat.le_succ_of_le ih
  | mark hc rest ih => exact Nat.succ_le_succ ih
  | @numeral cs ts hnum rest ih =>
      obtain ⟨d, hd, -⟩ := hnum.digit
      have hlt := hrun Cursor.isNumeric cs (List.ne_nil_of_mem hd)
      rw [List.length_cons]
      omega
  | @name cs ts hname rest ih =>
      have hlt := hrun Cursor.isAlphabetic cs hname.nonempty
      rw [List.length_cons]
      omega

/-! ### Texts put together -/

section Runs

variable {p : Char → Bool}

/-- A run ends where a character of another class stands. -/
theorem takeWhile_run_append {run rest : List Char} (hrun : ∀ c ∈ run, p c = true)
    (hrest : ∀ c, rest.head? = some c → p c = false) : (run ++ rest).takeWhile p = run := by
  have hnone : rest.takeWhile p = [] := by
    cases rest with
    | nil => rfl
    | cons c rest => simp [hrest c rfl]
  rw [List.takeWhile_append_of_pos hrun, hnone, List.append_nil]

theorem dropWhile_run_append {run rest : List Char} (hrun : ∀ c ∈ run, p c = true)
    (hrest : ∀ c, rest.head? = some c → p c = false) : (run ++ rest).dropWhile p = rest := by
  have hsame : rest.dropWhile p = rest := by
    cases rest with
    | nil => rfl
    | cons c rest => simp [hrest c rfl]
  rw [List.dropWhile_append_of_pos hrun, hsame]

/-- A character of another class does not change the run before it. -/
theorem takeWhile_append_cons {m : Char} (hm : p m = false) (cs ds : List Char) :
    (cs ++ m :: ds).takeWhile p = cs.takeWhile p := by
  induction cs with
  | nil => simp [hm]
  | cons c cs ih => simp only [List.cons_append, List.takeWhile_cons, ih]

theorem dropWhile_append_cons {m : Char} (hm : p m = false) (cs ds : List Char) :
    (cs ++ m :: ds).dropWhile p = cs.dropWhile p ++ m :: ds := by
  induction cs with
  | nil => simp [hm]
  | cons c cs ih =>
      simp only [List.cons_append, List.dropWhile_cons, ih]
      split <;> rfl

theorem head?_dropWhile_ne {cs : List Char} {c : Char} (h : (cs.dropWhile p).head? = some c) :
    p c = false := by
  have hnot := List.head?_dropWhile_not (p := p) (l := cs)
  rw [h] at hnot
  simpa using hnot

end Runs

/-- A numeral is spelled in front of anything that does not go on with it. -/
theorem Spells.numeral_append {run rest : List Char} {ts : List Token} (hrun : IsNumeral run)
    (hrest : ∀ c, rest.head? = some c → Cursor.isNumeric c = false) (h : Spells rest ts) :
    Spells (run ++ rest) (.numeral run :: ts) := by
  have htake := takeWhile_run_append hrun.numeric hrest
  have hdrop := dropWhile_run_append hrun.numeric hrest
  have hspells : Spells (run ++ rest) (.numeral ((run ++ rest).takeWhile Cursor.isNumeric) :: ts) :=
    .numeral (htake.symm ▸ hrun) (hdrop.symm ▸ h)
  rwa [htake] at hspells

/-- A name is spelled in front of anything that does not go on with it. -/
theorem Spells.name_append {run rest : List Char} {ts : List Token} (hrun : IsName run)
    (hrest : ∀ c, rest.head? = some c → Cursor.isAlphabetic c = false) (h : Spells rest ts) :
    Spells (run ++ rest) (.name run :: ts) := by
  have htake := takeWhile_run_append hrun.alphabetic hrest
  have hdrop := dropWhile_run_append hrun.alphabetic hrest
  have hspells : Spells (run ++ rest) (.name ((run ++ rest).takeWhile Cursor.isAlphabetic) :: ts) :=
    .name (htake.symm ▸ hrun) (hdrop.symm ▸ h)
  rwa [htake] at hspells

/-! ### The value of a numeral -/

namespace Double

theorem isSome_digit? {c : Char} : (digit? c).isSome ↔ '0' ≤ c ∧ c ≤ '9' := by
  simp [digit?]

/-- Digits denote a number, and nothing else does. -/
theorem isSome_natOfDigits? (cs : List Char) :
    (natOfDigits? cs).isSome ↔ ∀ c ∈ cs, '0' ≤ c ∧ c ≤ '9' := by
  have hnone : ∀ cs : List Char,
      cs.foldl (fun acc c => do return 10 * (← acc) + (← digit? c)) (none : Option Nat) = none := by
    intro cs
    induction cs with
    | nil => rfl
    | cons c cs ih => exact ih
  have hsome : ∀ (cs : List Char) (n : Nat),
      (cs.foldl (fun acc c => do return 10 * (← acc) + (← digit? c)) (some n)).isSome ↔
        ∀ c ∈ cs, '0' ≤ c ∧ c ≤ '9' := by
    intro cs
    induction cs with
    | nil => simp
    | cons c cs ih =>
        intro n
        cases hc : digit? c with
        | none =>
            have hno : ¬ ('0' ≤ c ∧ c ≤ '9') := by simp [← isSome_digit?, hc]
            rw [List.foldl_cons, List.forall_mem_cons, hc]
            simp only [hno, false_and, iff_false]
            intro hfold
            have hfalse := (congrArg Option.isSome (hnone cs)).symm.trans hfold
            exact Bool.false_ne_true hfalse
        | some d =>
            have hyes : '0' ≤ c ∧ c ≤ '9' := by simp [← isSome_digit?, hc]
            simp only [List.foldl_cons, hc, List.forall_mem_cons, hyes, true_and]
            exact ih _
  exact hsome cs 0

/-- What stands before and behind the first point is the text without it. -/
theorem erase_point (text : List Char) :
    text.takeWhile (· ≠ '.') ++ (text.dropWhile (· ≠ '.')).drop 1 = text.erase '.' := by
  induction text with
  | nil => rfl
  | cons c cs ih =>
      by_cases hc : c = '.'
      · simp [hc]
      · simpa [hc] using ih

/-- A numeral has digits, and a point at most besides. -/
theorem isSome_ofNumeral?_iff (text : List Char) :
    (ofNumeral? text).isSome ↔
      text.erase '.' ≠ [] ∧ ∀ c ∈ text.erase '.', '0' ≤ c ∧ c ≤ '9' := by
  have hempty : (text.takeWhile (· ≠ '.')).isEmpty ∧
      ((text.dropWhile (· ≠ '.')).drop 1).isEmpty ↔ text.erase '.' = [] := by
    rw [← erase_point, List.append_eq_nil_iff, List.isEmpty_iff, List.isEmpty_iff]
  rw [← isSome_natOfDigits?]
  simp only [ofNumeral?, decimal?, hempty, erase_point]
  by_cases h : text.erase '.' = [] <;> simp [h]

/-- **A run of digits and points has a value exactly when it is a numeral.** -/
theorem isSome_ofNumeral? {text : List Char} (h : ∀ c ∈ text, Cursor.isNumeric c) :
    (ofNumeral? text).isSome ↔ IsNumeral text := by
  have hdigit : (∀ c ∈ text.erase '.', '0' ≤ c ∧ c ≤ '9') ↔ '.' ∉ text.erase '.' := by
    constructor
    · intro hall hpoint
      exact absurd (hall '.' hpoint).1 (by decide)
    · intro hpoint c hc
      rcases isNumeric_iff.mp (h c (List.mem_of_mem_erase hc)) with hrange | rfl
      · exact hrange
      · exact absurd hc hpoint
  have hpoint : '.' ∉ text.erase '.' ↔ text.count '.' ≤ 1 := by
    rw [← List.count_eq_zero, List.count_erase_self]
    omega
  rw [isSome_ofNumeral?_iff, hdigit]
  constructor
  · rintro ⟨hne, hno⟩
    obtain ⟨c, hc⟩ := List.exists_mem_of_ne_nil _ hne
    exact ⟨h, ⟨c, List.mem_of_mem_erase hc, by rintro rfl; exact hno hc⟩, hpoint.mp hno⟩
  · rintro ⟨-, ⟨c, hc, hne⟩, hcount⟩
    exact ⟨List.ne_nil_of_mem ((List.mem_erase_of_ne hne).mpr hc), hpoint.mpr hcount⟩

end Double

/-- The double that a numeral denotes. -/
def IsNumeral.value {text : List Char} (h : IsNumeral text) : Float :=
  (Double.ofNumeral? text).get ((Double.isSome_ofNumeral? h.numeric).mpr h)

end Reckon
