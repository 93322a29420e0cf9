import Reckon.Proofs.Parentheses
import Reckon.Proofs.Reading
/-!
# How the rules fail

A rule that fails has read the beginning of a phrase of its part: whole phrases,
marks and the names of calls that are still open, up to the place where it
cannot go on.  `Fails` says what was read and with which fault it ends, and
every failure of a rule is of that form (`factor_fails`, `expression_fails`).

An operand begins only where no run reaches up to its first character
(`Cursor.Entry`), so the numeral or name that is found there is a whole run.
-/

namespace Reckon

namespace Cursor

variable {c c' : Cursor}

/-- The name at the cursor, empty if there is none. -/
def word (c : Cursor) : List Char :=
  c.rest.takeWhile isAlphabetic

/-- What lies before the cursor grows by what is skipped. -/
theorem Started.take_skip (h : c.Started) {run rest : List Char} (hrest : c.rest = run ++ rest) :
    c.source.take (c.skip run).pos.toNat = c.source.take c.pos.toNat ++ run := by
  have hbegun := h.begun
  have hpos : (c.skip run).pos.toNat = c.pos.toNat + run.length := by
    simp only [skip]
    omega
  rw [hpos, List.take_add, ← h.rest_eq, hrest, List.take_left]

/-- Behind the spaces there are none to skip. -/
theorem skipSpaces_skipSpaces (c : Cursor) : c.skipSpaces.skipSpaces = c.skipSpaces :=
  skipSpaces_of_head?_ne (c.rest_skipSpaces ▸ head?_behindSpaces_ne _)

/-- A place inside of a source where no run reaches up to. -/
structure Entry (c : Cursor) : Prop where
  started : c.Started
  inside : c.pos ≤ c.source.length
  apart : ∀ x, (c.source.take c.pos.toNat).getLast? = some x →
    isNumeric x = false ∧ isAlphabetic x = false

/-- No run reaches up to what stands behind spaces. -/
theorem Entry.skipSpaces (h : c.Entry) : c.skipSpaces.Entry := by
  have hahead := Ahead.ahead_skipSpaces h.started
  refine ⟨hahead.started, hahead.within h.inside, fun x hx => ?_⟩
  have htake := h.started.take_skip
    (List.takeWhile_append_dropWhile (p := (· == ' ')) (l := c.rest)).symm
  rw [show c.skipSpaces.source = c.source from rfl, Cursor.skipSpaces, htake,
    List.getLast?_append] at hx
  cases hgap : (c.rest.takeWhile (· == ' ')).getLast? with
  | none => exact h.apart x (by simpa [hgap] using hx)
  | some y =>
      obtain rfl : y = x := by simpa [hgap] using hx
      obtain rfl : y = ' ' := by simpa using of_mem_takeWhile y (List.mem_of_getLast? hgap)
      exact ⟨by decide, by decide⟩

end Cursor

namespace Grammar

/-! ### What is read on the way -/

/-- Between two cursors some tokens were consumed. -/
structure Passes (c c' : Cursor) (used : List Token) : Prop where
  ahead : c.Ahead c'
  consumes : Consumes c c' used

variable {c c₁ c' : Cursor} {used : List Token}

/-- Of two stretches the tokens follow each other. -/
theorem Passes.trans {more : List Token} (h : Passes c c₁ used) (h' : Passes c₁ c' more) :
    Passes c c' (used ++ more) :=
  ⟨h.ahead.trans h'.ahead, h.consumes.trans h'.consumes⟩

/-- The text between the two cursors spells the tokens. -/
theorem Passes.spells (h : Passes c c' used) (hc : c.Started) (hinside : c.pos ≤ c.source.length) :
    Spells ((c.source.take c'.pos.toNat).drop c.pos.toNat) used := by
  obtain ⟨text, hrest, hspells⟩ := h.consumes
  have hwithin := h.ahead.within hinside
  have hpos := h.ahead.pos_le
  have hbegun := hc.begun
  have hlength := congrArg List.length hrest
  rw [List.length_append, hc.length_rest, h.ahead.started.length_rest, h.ahead.source_eq]
    at hlength
  rw [h.ahead.source_eq] at hwithin
  have htext : text.length = c'.pos.toNat - c.pos.toNat := by omega
  have hbetween : (c.source.take c'.pos.toNat).drop c.pos.toNat = text := by
    rw [List.drop_take, ← hc.rest_eq, ← htext, hrest, List.take_left]
  rw [hbetween]
  simpa using hspells [] [] List.nil_prefix .done

/-- A mark is eaten between two cursors. -/
structure Eaten (x : Char) (c c' : Cursor) : Prop where
  started : c.Started
  inside : c.pos ≤ c.source.length
  mark : x ∈ marks
  run : eat x c = .ok true c'

/-- A mark that was eaten stood behind the spaces. -/
theorem eat_eq_true {x : Char} (h : eat x c = .ok true c') :
    c.skipSpaces.rest.head? = some x ∧ c' = c.skipSpaces.advance := by
  rw [eat_eq] at h
  split at h
  · next hhead =>
      cases h
      exact ⟨hhead, rfl⟩
  · cases h

/-- A mark that was not eaten does not stand behind the spaces, which are gone.
-/
theorem eat_eq_false {x : Char} (h : eat x c = .ok false c') :
    c.skipSpaces.rest.head? ≠ some x ∧ c' = c.skipSpaces := by
  rw [eat_eq] at h
  split at h
  · cases h
  · next hhead =>
      cases h
      exact ⟨hhead, rfl⟩

namespace Eaten

variable {x : Char} (h : Eaten x c c')

include h

/-- Between the two cursors is the mark and nothing else. -/
theorem passes : Passes c c' [.mark x] :=
  ⟨(eat_moves x).ok h.started h.run, (eat_true h.started h.mark h.run).2⟩

/-- The cursor is one place behind the spaces. -/
theorem pos_eq : c'.pos = c.skipSpaces.pos + 1 := by
  rw [(eat_eq_true h.run).2]
  rfl

/-- The mark stands before the cursor. -/
theorem getElem?_eq : c'.source[(c'.pos - 1).toNat]? = some x := by
  obtain ⟨hhead, rfl⟩ := eat_eq_true h.run
  have hskip : c.skipSpaces.advance.pos - 1 = c.skipSpaces.pos := Int.add_sub_cancel ..
  rw [hskip]
  exact h.started.skipSpaces.getElem?_pos.trans hhead

/-- Behind a mark the cursor is not at the beginning. -/
theorem pos_pos : 0 < c'.pos := by
  have hbegun := h.started.skipSpaces.begun
  have hpos := h.pos_eq
  omega

/-- What stands behind a mark goes on with no run. -/
theorem entry : c'.Entry := by
  refine ⟨h.passes.ahead.started, h.passes.ahead.within h.inside, fun y hy => ?_⟩
  have hpos := h.pos_pos
  have hmark := h.getElem?_eq
  have hsucc : c'.pos.toNat = (c'.pos - 1).toNat + 1 := by omega
  rw [hsucc, List.take_add_one, hmark, Option.toList_some, List.getLast?_concat] at hy
  obtain rfl := Option.some.inj hy
  exact (class_of_mem_marks h.mark).2

end Eaten

/-- A parenthesis is left open by what closes nothing but what it opens. -/
theorem Eaten.leavesOpen (h : Eaten '(' c c₁) (hp : Passes c₁ c' used)
    (hused : (used.foldlM Token.paired 0).isSome) :
    LeavesOpen (c.source.take c'.pos.toNat) (c₁.pos - 1).toNat := by
  have hpos := h.pos_pos
  have hle := hp.ahead.pos_le
  have hmark := h.getElem?_eq
  have hspells := hp.spells h.entry.started h.entry.inside
  rw [h.passes.ahead.source_eq] at hmark hspells
  have hnext : (c₁.pos - 1).toNat + 1 = c₁.pos.toNat := by omega
  refine ⟨?_, ?_⟩
  · rw [List.getElem?_take_of_lt (by omega), hmark]
  · rw [hnext, hspells.foldlM_paired 0]
    exact hused

/-- To eat never fails. -/
theorem eat_gives (x : Char) : Gives (eat x) :=
  fun c => ⟨(c.eat [x]).1, (c.eat [x]).2, rfl⟩

/-- To try several marks never fails. -/
theorem eatAny_gives (signs : List Char) : Gives (eatAny signs) := by
  induction signs with
  | nil => exact .pure _
  | cons y signs ih =>
      refine (eat_gives y).bind fun found => ?_
      cases found with
      | true => exact .pure _
      | false => exact ih

/-- The place of what was eaten is always found. -/
theorem consumedAt_gives : Gives consumedAt :=
  fun c => ⟨c.pos - 1, c, rfl⟩

/-- An operator that was found is eaten. -/
theorem eatAny_some_eaten {signs : List Char} (hsigns : ∀ x ∈ signs, x ∈ marks) {x : Char}
    (hc : c.Started) (hinside : c.pos ≤ c.source.length)
    (hok : eatAny signs c = .ok (some x) c') : x ∈ signs ∧ Eaten x c c' := by
  induction signs generalizing c with
  | nil => cases hok
  | cons y signs ih =>
      obtain ⟨found, c₁, heat, hok⟩ := bind_eq_ok.mp hok
      cases found with
      | true =>
          cases hok
          exact ⟨List.mem_cons_self, hc, hinside, hsigns _ List.mem_cons_self, heat⟩
      | false =>
          obtain ⟨-, rfl⟩ := eat_eq_false heat
          have hahead := Cursor.Ahead.ahead_skipSpaces hc
          obtain ⟨hmem, heaten⟩ := ih (fun z hz => hsigns z (List.mem_cons_of_mem _ hz))
            hahead.started (hahead.within hinside) hok
          refine ⟨List.mem_cons_of_mem _ hmem, hc, hinside, heaten.mark, ?_⟩
          rw [eat_eq, ← c.skipSpaces_skipSpaces, ← eat_eq]
          exact heaten.run

/-- Where no operator was found an operand may begin. -/
theorem eatAny_none_entry {signs : List Char} (hc : c.Entry) (hok : eatAny signs c = .ok none c') :
    c'.Entry := by
  induction signs generalizing c with
  | nil =>
      cases hok
      exact hc
  | cons y signs ih =>
      obtain ⟨found, c₁, heat, hok⟩ := bind_eq_ok.mp hok
      cases found with
      | true => cases hok
      | false =>
          obtain ⟨-, rfl⟩ := eat_eq_false heat
          exact ih hc.skipSpaces hok

/-- Where a mark was not eaten only spaces are gone. -/
theorem eat_false_passes {x : Char} (hc : c.Started) (heat : eat x c = .ok false c') :
    Passes c c' [] :=
  ⟨(eat_moves x).ok hc heat, (eat_false hc heat).2⟩

/-- The name at a cursor is called: the parenthesis behind it is eaten. -/
structure Called (c c₁ : Cursor) : Prop where
  entry : c.Entry
  name : IsName c.word
  opens : Eaten '(' (c.scan Cursor.isAlphabetic).2 c₁

namespace Called

variable (h : Called c c₁)

include h

/-- Between the two cursors is the name and the parenthesis. -/
theorem passes : Passes c c₁ [.name c.word, .mark '('] := by
  have hscan : Passes c (c.scan Cursor.isAlphabetic).2 [.name c.word] :=
    ⟨.ahead_scan h.entry.started _, consumes_scan fun rest ts hrest hts =>
      .name_append h.name hrest hts⟩
  exact hscan.trans h.opens.passes

/-- The name is found from the parenthesis. -/
theorem callee_eq : callee c₁.source (c₁.pos - 1).toNat = c.word := by
  have hstarted := h.entry.started.scan Cursor.isAlphabetic
  have hname := h.entry.started.take_skip
    (List.takeWhile_append_dropWhile (p := Cursor.isAlphabetic) (l := c.rest)).symm
  have hgap := hstarted.take_skip (List.takeWhile_append_dropWhile (p := (· == ' '))
    (l := (c.scan Cursor.isAlphabetic).2.rest)).symm
  have hpos : c₁.pos - 1 = (c.scan Cursor.isAlphabetic).2.skipSpaces.pos := by
    rw [h.opens.pos_eq, Int.add_sub_cancel]
  have htake : c₁.source.take (c₁.pos - 1).toNat = c.source.take c.pos.toNat ++
      (c.word ++ (c.scan Cursor.isAlphabetic).2.rest.takeWhile (· == ' ')) := by
    rw [h.passes.ahead.source_eq, hpos, ← List.append_assoc]
    exact hgap.trans (congrArg (· ++ _) hname)
  refine callee_of_take htake h.name (fun x hx => ?_) fun x hx => (h.entry.apart x hx).2
  simpa using of_mem_takeWhile x hx

end Called

/-- A whole phrase was read between two cursors. -/
structure Passed (scope : Scope) (n : Nat) {part : Part} (p : Phrase part) (c c' : Cursor) : Prop
    extends Passes c c' p.tokens where
  resolved : p.Resolved scope
  nesting_le : p.nesting ≤ n

/-- Where a rule succeeds a whole phrase was read. -/
theorem Reads.passed {scope : Scope} {n : Nat} {part : Part} {rule : Rule Expr}
    (h : Reads scope n part rule) (hmoves : Moves rule) {tree : Expr} (hc : c.Started)
    (hok : rule c = .ok tree c') : ∃ p : Phrase part, Passed scope n p c c' := by
  obtain ⟨p, hread⟩ := h hc hok
  exact ⟨p, ⟨hmoves.ok hc hok, hread.consumes⟩, hread.resolved, hread.nesting_le⟩

/-- Spaces in front of a phrase belong to the stretch. -/
theorem Passed.behind {scope : Scope} {n : Nat} {part : Part} {p : Phrase part}
    (h : Passes c c₁ []) (hp : Passed scope n p c₁ c') : Passed scope n p c c' :=
  { hp with toPasses := h.trans hp.toPasses }

/-! ### Failures -/

/-- How the rule of a part fails that may nest `n` factors: what it reads from
one cursor to the other, and the fault that it ends with. -/
inductive Fails (scope : Scope) (limit : Int) :
    (part : Part) → (n : Nat) → Cursor → ParseError → Cursor → Prop
  | spaces {part : Part} {n : Nat} {c c₁ c' : Cursor} {e : ParseError} (h : Passes c c₁ [])
      (rest : Fails scope limit part n c₁ e c') : Fails scope limit part n c e c'
  | first {r : Rank} {n : Nat} {c c' : Cursor} {e : ParseError}
      (operand : Fails scope limit r.operand n c e c') : Fails scope limit (.chain r) n c e c'
  | behind {r : Rank} {n : Nat} {c c₁ c' : Cursor} {e : ParseError} {p : Phrase r.operand}
      (hp : Passed scope n p c c₁) (links : Fails scope limit (.links r) n c₁ e c') :
      Fails scope limit (.chain r) n c e c'
  | operand {r : Rank} {n : Nat} {c c₁ c' : Cursor} {e : ParseError} {sign : Char}
      (hsign : sign ∈ r.signs) (h : Eaten sign c c₁)
      (operand : Fails scope limit r.operand n c₁ e c') : Fails scope limit (.links r) n c e c'
  | later {r : Rank} {n : Nat} {c c₁ c₂ c' : Cursor} {e : ParseError} {sign : Char}
      (hsign : sign ∈ r.signs) (h : Eaten sign c c₁) {p : Phrase r.operand}
      (hp : Passed scope n p c₁ c₂) (links : Fails scope limit (.links r) n c₂ e c') :
      Fails scope limit (.links r) n c e c'
  /-- No factor may begin any more. -/
  | tooDeep {c : Cursor} (hc : c.Entry) :
      Fails scope limit .factor 0 c ⟨.tooDeep (toString limit), c.pos⟩ c
  | signed {n : Nat} {c c₁ c' : Cursor} {e : ParseError} {sign : Char}
      (hsign : sign ∈ Rank.sum.signs) (h : Eaten sign c c₁)
      (operand : Fails scope limit .factor n c₁ e c') : Fails scope limit .factor (n + 1) c e c'
  | bottom {n : Nat} {c c' : Cursor} {e : ParseError} (bottom : Fails scope limit .base n c e c') :
      Fails scope limit .factor (n + 1) c e c'
  | exponent {n : Nat} {c c₁ c₂ c' : Cursor} {e : ParseError} {p : Phrase .base}
      (hp : Passed scope n p c c₁) (h : Eaten '^' c₁ c₂)
      (exponent : Fails scope limit .factor n c₂ e c') : Fails scope limit .factor (n + 1) c e c'
  | inner {n : Nat} {c c₁ c' : Cursor} {e : ParseError} (h : Eaten '(' c c₁)
      (inner : Fails scope limit .expression n c₁ e c') : Fails scope limit .base n c e c'
  | argument {n : Nat} {c c₁ c' : Cursor} {e : ParseError} (h : Called c c₁)
      (argument : Fails scope limit .expression n c₁ e c') : Fails scope limit .base n c e c'
  /-- Behind the inside of a group stands neither what closes it nor what goes on
  with it. -/
  | unclosedGroup {n : Nat} {c c₁ c' : Cursor} (h : Eaten '(' c c₁) {p : Phrase .expression}
      (hp : Passed scope n p c₁ c')
      (hnext : ∀ x ∈ [')', ' ', '+', '-', '*', '/', '^'], c'.rest.head? ≠ some x) :
      Fails scope limit .base n c ⟨.unclosedGroup (c₁.pos - 1), c'.pos⟩ c'
  | unclosedCall {n : Nat} {c c₁ c' : Cursor} (h : Called c c₁) {p : Phrase .expression}
      (hp : Passed scope n p c₁ c')
      (hnext : ∀ x ∈ [')', ' ', '+', '-', '*', '/', '^'], c'.rest.head? ≠ some x) :
      Fails scope limit .base n c ⟨.unclosedCall (String.ofList c.word), c'.pos⟩ c'
  /-- No operand begins here, and no sign. -/
  | unexpected {n : Nat} {c : Cursor} (hc : c.Entry)
      (hnext : ∀ x ∈ ['(', ' ', '+', '-'], c.rest.head? ≠ some x)
      (hclass : ∀ x, c.rest.head? = some x →
        Cursor.isNumeric x = false ∧ Cursor.isAlphabetic x = false) :
      Fails scope limit .base n c ⟨.unexpected c.rest.head?, c.pos⟩ c
  | malformedNumber {n : Nat} {c : Cursor} (hc : c.Entry)
      (hne : c.rest.takeWhile Cursor.isNumeric ≠ [])
      (hno : ¬ IsNumeral (c.rest.takeWhile Cursor.isNumeric)) :
      Fails scope limit .base n c
        ⟨.malformedNumber (String.ofList (c.rest.takeWhile Cursor.isNumeric)), c.pos⟩
        (c.scan Cursor.isNumeric).2
  | unknownVariable {n : Nat} {c : Cursor} (hc : c.Entry) (hname : IsName c.word)
      (hnext : (behindSpaces (c.scan Cursor.isAlphabetic).2.rest).head? ≠ some '(')
      (hunbound : scope.find? (String.ofList c.word) = none) :
      Fails scope limit .base n c ⟨.unknownVariable (String.ofList c.word), c.pos⟩
        (c.scan Cursor.isAlphabetic).2.skipSpaces
  | unknownMethod {n : Nat} {c c₁ c' : Cursor} (h : Called c c₁) (hclose : Eaten ')' c₁ c')
      (hno : String.ofList c.word ∉ Method.names) :
      Fails scope limit .base n c ⟨.unknownMethod (String.ofList c.word), c.pos⟩ c'
  /-- The argument is read and closed before the function is looked for. -/
  | unknownFunction {n : Nat} {c c₁ c₂ c' : Cursor} (h : Called c c₁) {p : Phrase .expression}
      (hp : Passed scope n p c₁ c₂) (hhead : c₂.rest.head? = some ')')
      (hno : Function.ofName? (String.ofList c.word) = none) :
      Fails scope limit .base n c ⟨.unknownFunction (String.ofList c.word), c.pos⟩ c'

section Walk

variable (scope : Scope) (limit : Int) (n : Nat)

/-- Every failure of a rule is one of its part. -/
def FailsAs (part : Part) (rule : Rule Expr) : Prop :=
  ∀ ⦃c c' : Cursor⦄ ⦃e : ParseError⦄, c.Entry → rule c = .error e c' →
    Fails scope limit part n c e c'

/-- A number fails for a run that is no numeral. -/
theorem number_fails {c c' : Cursor} {e : ParseError} (hc : c.Entry) {x : Char}
    (hhead : c.rest.head? = some x) (hx : Cursor.isNumeric x = true)
    (hbad : number c = .error e c') : Fails scope limit .base n c e c' := by
  rw [number_eq] at hbad
  obtain ⟨rest, hrest⟩ := List.head?_eq_some_iff.mp hhead
  cases hvalue : Double.ofNumeral? (c.scan Cursor.isNumeric).1 with
  | some value =>
      rw [hvalue] at hbad
      cases hbad
  | none =>
      rw [hvalue] at hbad
      cases hbad
      refine .malformedNumber hc (by simp [hrest, hx]) fun hnumeral => ?_
      have hsome := (Double.isSome_ofNumeral? of_mem_takeWhile).mpr hnumeral
      rw [show c.rest.takeWhile Cursor.isNumeric = (c.scan Cursor.isNumeric).1 from rfl, hvalue]
        at hsome
      cases hsome

/-- Behind an argument that is not closed stands something else. -/
theorem eat_close_false {c c' : Cursor}
    (hhalts : ∀ x ∈ [' ', '+', '-', '*', '/', '^'], c.rest.head? ≠ some x)
    (heat : eat ')' c = .ok false c') :
    c = c' ∧ ∀ x ∈ [')', ' ', '+', '-', '*', '/', '^'], c.rest.head? ≠ some x := by
  obtain ⟨hne, rfl⟩ := eat_eq_false heat
  have hskip := Cursor.skipSpaces_of_head?_ne (hhalts ' ' List.mem_cons_self)
  rw [hskip] at hne ⊢
  exact ⟨rfl, List.forall_mem_cons.mpr ⟨hne, hhalts⟩⟩

variable (hfails : FailsAs scope limit n .expression (expression (factor scope limit n)))

/-- Behind an expression that was read stands nothing with which it could go on.
-/
theorem expression_passed {c c' : Cursor} {tree : Expr} (hc : c.Started)
    (hok : expression (factor scope limit n) c = .ok tree c') :
    (∃ p : Phrase .expression, Passed scope n p c c') ∧
      ∀ x ∈ [' ', '+', '-', '*', '/', '^'], c'.rest.head? ≠ some x :=
  ⟨Reads.passed (expression_reads scope n (factor_reads scope n limit))
    (expression_moves scope limit n) hc hok, expression_halts scope limit n hc hok⟩

include hfails

/-- A call fails in its argument, at its missing parenthesis or for its
function. -/
theorem call_fails {c c₁ c₂ c' : Cursor} {e : ParseError} (h : Called c c₁)
    (hgap : Passes c₁ c₂ []) (hc : c₂.Entry)
    (hbad : call (expression (factor scope limit n)) (String.ofList c.word) c.pos c₂ =
      .error e c') : Fails scope limit .base n c e c' := by
  obtain hbad | ⟨argument, c₃, hargument, hbad⟩ := bind_eq_error.mp hbad
  · exact .argument h (.spaces hgap (hfails hc hbad))
  · obtain ⟨⟨p, hp⟩, hhalts⟩ := expression_passed scope limit n hc.started hargument
    obtain ⟨closed, c₄, heat, hbad⟩ := (eat_gives _).bind_eq_error hbad
    cases closed with
    | false =>
        obtain ⟨rfl, hnext⟩ := eat_close_false hhalts heat
        cases hbad
        exact .unclosedCall h (hp.behind hgap) hnext
    | true =>
        obtain ⟨hhead, -⟩ := eat_eq_true heat
        rw [Cursor.skipSpaces_of_head?_ne (hhalts ' ' List.mem_cons_self)] at hhead
        simp only [if_true] at hbad
        split at hbad
        · cases hbad
        · next hno =>
            cases hbad
            exact .unknownFunction h (hp.behind hgap) hhead (Option.not_isSome_iff_eq_none.mp hno)

/-- A name fails as a variable, as a method or as a call. -/
theorem identifier_fails {c c' : Cursor} {e : ParseError} (hc : c.Entry) {x : Char}
    (hhead : c.rest.head? = some x) (hx : Cursor.isAlphabetic x = true)
    (hbad : identifier scope (expression (factor scope limit n)) c = .error e c') :
    Fails scope limit .base n c e c' := by
  rw [identifier_eq] at hbad
  obtain ⟨rest, hrest⟩ := List.head?_eq_some_iff.mp hhead
  have hname : IsName c.word :=
    ⟨by simp [Cursor.word, hrest, hx], of_mem_takeWhile⟩
  have hahead := Cursor.Ahead.ahead_scan hc.started Cursor.isAlphabetic
  obtain ⟨called, c₁, heat, hbad⟩ := (eat_gives _).bind_eq_error hbad
  cases called with
  | false =>
      obtain ⟨hnext, rfl⟩ := eat_eq_false heat
      rw [Cursor.rest_skipSpaces] at hnext
      simp only [Bool.false_eq_true, if_false, reference] at hbad
      cases hfind : scope.find? (String.ofList c.word) with
      | some producer =>
          rw [show (c.scan Cursor.isAlphabetic).1 = c.word from rfl, hfind] at hbad
          cases hbad
      | none =>
          rw [show (c.scan Cursor.isAlphabetic).1 = c.word from rfl, hfind] at hbad
          cases hbad
          exact .unknownVariable hc hname hnext hfind
  | true =>
      have hcalled : Called c c₁ :=
        ⟨hc, hname, hahead.started, hahead.within hc.inside, by decide, heat⟩
      obtain ⟨closed, c₂, heat, hbad⟩ := (eat_gives _).bind_eq_error hbad
      cases closed with
      | false =>
          -- The argument begins behind the spaces that the search for its end skipped.
          have hgap := eat_false_passes hcalled.opens.entry.started heat
          obtain ⟨-, rfl⟩ := eat_eq_false heat
          exact call_fails scope limit n hfails hcalled hgap hcalled.opens.entry.skipSpaces hbad
      | true =>
          have hentry := hcalled.opens.entry
          simp only [if_true, method] at hbad
          split at hbad
          · cases hbad
          · next hno =>
              cases hbad
              exact .unknownMethod hcalled ⟨hentry.started, hentry.inside, by decide, heat⟩ hno

/-- Where neither a space nor a sign stands, a base fails as bases do. -/
theorem base_fails {c c' : Cursor} {e : ParseError} (hc : c.Entry)
    (hhead : ∀ x ∈ [' ', '+', '-'], c.rest.head? ≠ some x)
    (hbad : base scope (expression (factor scope limit n)) c = .error e c') :
    Fails scope limit .base n c e c' := by
  obtain ⟨opened, c₁, heat, hbad⟩ := (eat_gives _).bind_eq_error hbad
  cases opened with
  | true =>
      have hopened : Eaten '(' c c₁ := ⟨hc.started, hc.inside, by decide, heat⟩
      obtain ⟨place, c₂, hplace, hbad⟩ := consumedAt_gives.bind_eq_error hbad
      cases hplace
      obtain hbad | ⟨inner, c₃, hinner, hbad⟩ := bind_eq_error.mp hbad
      · exact .inner hopened (hfails hopened.entry hbad)
      · obtain ⟨⟨p, hp⟩, hhalts⟩ :=
          expression_passed scope limit n hopened.entry.started hinner
        obtain ⟨closed, c₄, heat, hbad⟩ := (eat_gives _).bind_eq_error hbad
        cases closed with
        | true => cases hbad
        | false =>
            obtain ⟨rfl, hnext⟩ := eat_close_false hhalts heat
            cases hbad
            exact .unclosedGroup hopened hp hnext
  | false =>
      obtain ⟨hopen, rfl⟩ := eat_eq_false heat
      rw [Cursor.skipSpaces_of_head?_ne (hhead ' ' List.mem_cons_self)] at hopen hbad
      simp only [Bool.false_eq_true, if_false] at hbad
      rw [bind_of_ok (current_eq c)] at hbad
      have hnext : ∀ x ∈ ['(', ' ', '+', '-'], c.rest.head? ≠ some x :=
        List.forall_mem_cons.mpr ⟨hopen, hhead⟩
      cases hx : c.rest.head? with
      | none =>
          simp only [hx] at hbad
          cases hbad
          exact hx ▸ .unexpected hc hnext (by simp [hx])
      | some x =>
          simp only [hx] at hbad
          split at hbad
          · next hnumeric => exact number_fails scope limit n hc hx hnumeric hbad
          · next hnumeric =>
              split at hbad
              · next halpha => exact identifier_fails scope limit n hfails hc hx halpha hbad
              · next halpha =>
                  cases hbad
                  refine hx ▸ .unexpected hc hnext fun y hy => ?_
                  obtain rfl := Option.some.inj (hx.symm.trans hy)
                  exact ⟨Bool.eq_false_iff.mpr hnumeric, Bool.eq_false_iff.mpr halpha⟩

omit hfails

/-- A chain fails in one of its operands, behind whole links. -/
theorem chain_fails {r : Rank} {operand : Rule Expr} (hop : FailsAs scope limit n r.operand operand)
    (hreads : Reads scope n r.operand operand) (hmoves : Moves operand) (left : List Char) :
    ∀ {tree : Expr} {c c' : Cursor} {e : ParseError}, c.Started → c.pos ≤ c.source.length →
      chain operand r.signs left tree c = .error e c' → Fails scope limit (.links r) n c e c' := by
  induction left with
  | nil =>
      intro tree c c' e hc hinside hbad
      cases hbad
  | cons _ left ih =>
      intro tree c c' e hc hinside hbad
      obtain ⟨found, c₁, heat, hbad⟩ := (eatAny_gives _).bind_eq_error hbad
      cases found with
      | none => cases hbad
      | some sign =>
          obtain ⟨hsign, heaten⟩ := eatAny_some_eaten (signs_subset_marks r) hc hinside heat
          obtain ⟨place, c₂, hplace, hbad⟩ := consumedAt_gives.bind_eq_error hbad
          cases hplace
          obtain hbad | ⟨right, c₃, hright, hbad⟩ := bind_eq_error.mp hbad
          · exact .operand hsign heaten (hop heaten.entry hbad)
          · obtain ⟨p, hp⟩ := Reads.passed hreads hmoves heaten.entry.started hright
            exact .later hsign heaten hp
              (ih hp.ahead.started (hp.ahead.within heaten.entry.inside) hbad)

/-- A level of operations fails in its first operand or in its chain. -/
theorem operations_fails {r : Rank} {operand : Rule Expr}
    (hop : FailsAs scope limit n r.operand operand) (hreads : Reads scope n r.operand operand)
    (hmoves : Moves operand) : FailsAs scope limit n (.chain r) (operations operand r.signs) := by
  intro c c' e hc hbad
  obtain hbad | ⟨first, c₁, hfirst, hbad⟩ := bind_eq_error.mp hbad
  · exact .first (hop hc hbad)
  · obtain ⟨p, hp⟩ := Reads.passed hreads hmoves hc.started hfirst
    rw [bind_of_ok (get_eq c₁)] at hbad
    exact .behind hp (chain_fails scope limit n hop hreads hmoves _ hp.ahead.started
      (hp.ahead.within hc.inside) hbad)

/-- An expression fails as its factors do. -/
theorem expression_fails_of (hfactor : FailsAs scope limit n .factor (factor scope limit n)) :
    FailsAs scope limit n .expression (expression (factor scope limit n)) := by
  have hreads : Reads scope n .factor (factor scope limit n) := factor_reads scope n limit
  have hmoves := factor_moves scope limit n
  exact operations_fails scope limit n (r := .sum)
    (operations_fails scope limit n (r := .product) hfactor hreads hmoves)
    (operations_reads scope n (r := .product) hreads) (operations_moves hmoves _)

/-- **Every failure of a factor is one.** -/
theorem factor_fails : FailsAs scope limit n .factor (factor scope limit n) := by
  induction n with
  | zero =>
      intro c c' e hc hbad
      cases hbad
      exact .tooDeep hc
  | succ n ih =>
      intro c c' e hc hbad
      obtain ⟨found, c₁, heat, hbad⟩ := (eatAny_gives _).bind_eq_error hbad
      cases found with
      | some sign =>
          obtain ⟨hsign, heaten⟩ :=
            eatAny_some_eaten (signs_subset_marks .sum) hc.started hc.inside heat
          obtain ⟨place, c₂, hplace, hbad⟩ := consumedAt_gives.bind_eq_error hbad
          cases hplace
          obtain hbad | ⟨operand, c₃, hoperand, hbad⟩ := bind_eq_error.mp hbad
          · exact .signed hsign heaten (ih heaten.entry hbad)
          · cases hbad
      | none =>
          have hentry := eatAny_none_entry hc heat
          have hgap : Passes c c₁ [] :=
            ⟨(eatAny_moves _).ok hc.started heat, (eatAny_none hc.started heat).2⟩
          obtain ⟨hrest, hnone⟩ := eatAny_none_rest (by simp) hc.started heat
          have hhead : ∀ x ∈ [' ', '+', '-'], c₁.rest.head? ≠ some x :=
            List.forall_mem_cons.mpr ⟨hrest ▸ head?_behindSpaces_ne _, hnone⟩
          refine .spaces hgap ?_
          have hfails := expression_fails_of scope limit n ih
          obtain hbad | ⟨bottom, c₂, hbottom, hbad⟩ := bind_eq_error.mp hbad
          · exact .bottom (base_fails scope limit n hfails hentry hhead hbad)
          · have hmoves := moves_stepwise.base scope (expression_moves scope limit n)
            have hreads : Reads scope n .base (base scope (expression (factor scope limit n))) :=
              base_reads scope n (expression_reads scope n (factor_reads scope n limit))
            obtain ⟨p, hp⟩ := Reads.passed hreads hmoves hentry.started hbottom
            obtain ⟨raised, c₃, heat, hbad⟩ := (eat_gives _).bind_eq_error hbad
            cases raised with
            | false => cases hbad
            | true =>
                have hraised : Eaten '^' c₂ c₃ :=
                  ⟨hp.ahead.started, hp.ahead.within hentry.inside, by decide, heat⟩
                obtain ⟨place, c₄, hplace, hbad⟩ := consumedAt_gives.bind_eq_error hbad
                cases hplace
                obtain hbad | ⟨exponent, c₅, hexponent, hbad⟩ := bind_eq_error.mp hbad
                · exact .exponent hp hraised (ih hraised.entry hbad)
                · cases hbad

/-- **An expression fails in one of these ways.** -/
theorem expression_fails :
    FailsAs scope limit n .expression (expression (factor scope limit n)) :=
  expression_fails_of scope limit n (factor_fails scope limit n)

/-- **A source that is not read** is so because its expression fails, or because
something is left over behind it. -/
theorem whole_fails {c c' : Cursor} {e : ParseError} (hc : c.Entry)
    (hbad : whole scope limit c = .error e c') :
    Fails scope limit .expression (allowance limit 0) c e c' ∨
      (e = ⟨.trailing c'.rest.head?, c'.pos⟩ ∧ c'.rest ≠ [] ∧
        (∃ p : Phrase .expression, Passed scope (allowance limit 0) p c c') ∧
        ∀ x ∈ [' ', '+', '-', '*', '/', '^'], c'.rest.head? ≠ some x) := by
  obtain hbad | ⟨tree, c₁, htree, hbad⟩ := bind_eq_error.mp hbad
  · exact Or.inl (expression_fails scope limit _ hc hbad)
  · obtain ⟨⟨p, hp⟩, hhalts⟩ := expression_passed scope limit _ hc.started htree
    rw [bind_of_ok (get_eq c₁)] at hbad
    by_cases hend : c₁.atEnd
    · rw [if_pos hend] at hbad
      cases hbad
    · rw [if_neg hend] at hbad
      cases hbad
      exact Or.inr ⟨rfl, mt hp.ahead.started.atEnd_iff.mpr hend, ⟨p, hp⟩, hhalts⟩

end Walk

/-! ### Whole sources -/

/-- An expression begins where a source does. -/
theorem entry_advance_ofSource (source : String) : (Cursor.ofSource source).advance.Entry :=
  ⟨Cursor.started_advance_ofSource source, Int.natCast_nonneg _,
    by simp [Cursor.advance, Cursor.ofSource]⟩

/-- A source is not read because its rule fails. -/
theorem parse_eq_error {scope : Scope} {limit : Int} {source : String} {e : ParseError} :
    parse scope limit source = .error e ↔
      ∃ c', whole scope limit (Cursor.ofSource source).advance = .error e c' := by
  unfold parse
  cases whole scope limit (Cursor.ofSource source).advance <;> simp

/-- What is read from the beginning is read from the text up to the cursor. -/
theorem Passes.spells_take {source : String} {c' : Cursor} {used : List Token}
    (h : Passes (Cursor.ofSource source).advance c' used) :
    Spells (source.toList.take c'.pos.toNat) used :=
  h.spells (entry_advance_ofSource source).started (entry_advance_ofSource source).inside

end Grammar

end Reckon
