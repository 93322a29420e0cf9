import Mathlib.Control.Monad.Basic
import Reckon.Proofs.Failure
/-!
# What errors say is true

The diagnostic of an error of reading has a place in the source, the end
included, and what its message says of that place is true
(`parse_error_truthful`): the character that is quoted stands there and no rule
goes on with it, the run that is quoted stands there as a whole, the parenthesis
that is named is left open, and the name that is reported is unknown in the way
in which it is used.

Each of these is true where the fault arises, and what it says concerns the
source alone, so it stays true on the way out of all that was begun.
-/

namespace Reckon

/-- A run of a class of characters stands at a place, with another class, or
nothing, on either side. -/
structure RunsAt (p : Char → Bool) (text : List Char) (i : Nat) (run : List Char) : Prop where
  run_eq : (text.drop i).takeWhile p = run
  nonempty : run ≠ []
  apart : ∀ c, (text.take i).getLast? = some c → p c = false

/-- A name at a place is unknown in the way in which it is used, and the message
says in which. -/
inductive UnknownAs (scope : Scope) (limit : Int) (text : List Char) (i : Nat) (name : String) :
    String → Prop
  | variable (hnext : (behindSpaces (text.drop (i + name.toList.length))).head? ≠ some '(')
      (hunbound : scope.find? name = none) :
      UnknownAs scope limit text i name ("Unknown variable: " ++ name)
  | method {inside : List Char}
      (hopens : behindSpaces (text.drop (i + name.toList.length)) = '(' :: inside)
      (hcloses : (behindSpaces inside).head? = some ')') (hno : name ∉ Method.names) :
      UnknownAs scope limit text i name ("Unknown method: " ++ name)
  | function {argument rest : List Char} {tree : Expr}
      (hcall : behindSpaces (text.drop (i + name.toList.length)) = '(' :: (argument ++ ')' :: rest))
      (hargument : parse scope limit (String.ofList argument) = .ok tree)
      (hno : Function.ofName? name = none) :
      UnknownAs scope limit text i name ("Unknown function: " ++ name)

/-- The message says which parenthesis is left open: the index of that of a
group, or the name in front of that of a call. -/
inductive SaysOpen (text : List Char) (i : Nat) : String → Prop
  | group {j : Nat} (hopen : LeavesOpen (text.take i) j) :
      SaysOpen text i ("Missing ')' (group opened at index " ++ toString j ++ ")")
  | call {j : Nat} (hopen : LeavesOpen (text.take i) j) (hname : callee text j ≠ []) :
      SaysOpen text i ("Missing ')' after argument to " ++ String.ofList (callee text j))

/-- What a diagnostic says is true of a source at a place.  Only a name that is
unknown is reported as a name. -/
def Diagnostic.TrueAt (scope : Scope) (limit : Int) (text : List Char) (i : Nat)
    (d : Diagnostic) : Prop :=
  match d.kind? with
  | some .unexpectedCharacter => d.name = none ∧
    ((i = text.length ∧ d.message = "Unexpected end of input") ∨
      ∃ c, text[i]? = some c ∧ d.message = "Unexpected: '" ++ c.toString ++ "'" ∧
        c ∉ ['(', ' ', '+', '-'] ∧ Cursor.isNumeric c = false ∧ Cursor.isAlphabetic c = false)
  | some .trailingInput => d.name = none ∧
    (∃ c, text[i]? = some c ∧ d.message = "Unexpected: '" ++ c.toString ++ "'" ∧
      c ∉ [' ', '+', '-', '*', '/', '^']) ∧
    ∃ tree, parse scope limit (String.ofList (text.take i)) = .ok tree
  | some .unclosedGroup => d.name = none ∧
    (∀ c, text[i]? = some c → c ∉ [')', ' ', '+', '-', '*', '/', '^']) ∧ SaysOpen text i d.message
  | some .malformedNumber => d.name = none ∧
    ∃ run, RunsAt Cursor.isNumeric text i run ∧
      d.message = "Malformed number: '" ++ String.ofList run ++ "'" ∧
      ((∀ c ∈ run, c = '.') ∨ 1 < run.count '.')
  | some .unknownIdentifier =>
    ∃ name, d.name = some name ∧ RunsAt Cursor.isAlphabetic text i name.toList ∧
      UnknownAs scope limit text i name d.message
  | some .nestingTooDeep => d.name = none ∧
    d.message = "Expression nested deeper than " ++ toString limit ++ " levels"
  | some .settings | none => False

/-- A diagnostic has its place in a source or at its end, its text is the message
with that place, and what it says is true there. -/
structure Diagnostic.Truthful (scope : Scope) (limit : Int) (text : List Char) (d : Diagnostic) :
    Prop where
  begun : 0 ≤ d.position
  inside : d.position ≤ text.length
  text_eq : d.text = d.message ++ " at index " ++ toString d.position
  trueAt : d.TrueAt scope limit text d.position.toNat

section Places

variable {c : Cursor}

/-- What does not stand before the cursor does not stand at its position. -/
theorem Cursor.Started.getElem?_notMem (hc : c.Started) {signs : List Char}
    (h : ∀ x ∈ signs, c.rest.head? ≠ some x) :
    ∀ x, c.source[c.pos.toNat]? = some x → x ∉ signs := by
  intro x hx hmem
  exact h x hmem (hc.getElem?_pos.symm.trans hx)

theorem Cursor.Entry.runsAt_word (hc : c.Entry) (hname : IsName c.word) :
    RunsAt Cursor.isAlphabetic c.source c.pos.toNat c.word :=
  ⟨by rw [← hc.started.rest_eq]; rfl, hname.nonempty, fun x hx => (hc.apart x hx).2⟩

/-- Behind the name is what is left when it is scanned. -/
theorem Cursor.Started.drop_word (hc : c.Started) :
    c.source.drop (c.pos.toNat + c.word.length) = (c.scan Cursor.isAlphabetic).2.rest := by
  rw [← List.drop_drop, ← hc.rest_eq]
  rfl

end Places

namespace Grammar

variable {scope : Scope} {limit : Int} {n : Nat} {c c₁ c₂ c' : Cursor}

/-- A mark that was eaten is what stands behind the spaces. -/
theorem Eaten.behindSpaces_eq {x : Char} (h : Eaten x c c') :
    behindSpaces c.rest = x :: c'.rest := by
  obtain ⟨hhead, rfl⟩ := eat_eq_true h.run
  obtain ⟨rest, hrest⟩ := List.head?_eq_some_iff.mp hhead
  rw [h.started.skipSpaces.rest_advance, ← c.rest_skipSpaces, hrest, List.tail_cons]

/-- Behind a called name stands the parenthesis. -/
theorem Called.behindSpaces_eq (h : Called c c₁) :
    behindSpaces (c.source.drop (c.pos.toNat + c.word.length)) = '(' :: c₁.rest := by
  rw [h.entry.started.drop_word, h.opens.behindSpaces_eq]

/-- A fault with a place in the source is reported truthfully if what it says
there is true. -/
theorem truthful_of_trueAt {text : List Char} {e : ParseError} (hbegun : 0 ≤ e.position)
    (hinside : e.position ≤ text.length)
    (hsaid : e.diagnostic.TrueAt scope limit text e.position.toNat) :
    e.diagnostic.Truthful scope limit text :=
  ⟨hbegun, hinside, if_pos hbegun, hsaid⟩

/-- Behind an expression in an open parenthesis stands something else than what
closes it or goes on with it. -/
theorem Eaten.unclosed (h : Eaten '(' c c₁) {p : Phrase .expression}
    (hp : Passed scope n p c₁ c') {signs : List Char}
    (hnext : ∀ x ∈ signs, c'.rest.head? ≠ some x) :
    0 ≤ c'.pos ∧ c'.pos ≤ c.source.length ∧
      (∀ x, c.source[c'.pos.toNat]? = some x → x ∉ signs) ∧
      LeavesOpen (c.source.take c'.pos.toNat) (c₁.pos - 1).toNat := by
  have hahead := h.passes.ahead.trans hp.ahead
  rw [← hahead.source_eq]
  refine ⟨hahead.started.begun, hp.ahead.within h.entry.inside,
    hahead.started.getElem?_notMem hnext, ?_⟩
  rw [hahead.source_eq]
  exact h.leavesOpen hp.toPasses (by simp [p.foldlM_paired])

/-- **What a failing rule says is true.** -/
theorem Fails.truthful {part : Part} {e : ParseError} (h : Fails scope limit part n c e c')
    (hn : n ≤ allowance limit 0) : e.diagnostic.Truthful scope limit c.source := by
  induction h with
  | spaces h _ ih => exact h.ahead.source_eq ▸ ih hn
  | first _ ih => exact ih hn
  | behind hp _ ih => exact hp.ahead.source_eq ▸ ih hn
  | operand _ h _ ih => exact h.passes.ahead.source_eq ▸ ih hn
  | later _ h hp _ ih => exact (h.passes.ahead.trans hp.ahead).source_eq ▸ ih hn
  | tooDeep hc => exact truthful_of_trueAt hc.started.begun hc.inside ⟨rfl, rfl⟩
  | signed _ h _ ih => exact h.passes.ahead.source_eq ▸ ih (Nat.le_of_succ_le hn)
  | bottom _ ih => exact ih (Nat.le_of_succ_le hn)
  | exponent hp h _ ih =>
      exact (hp.ahead.trans h.passes.ahead).source_eq ▸ ih (Nat.le_of_succ_le hn)
  | inner h _ ih => exact h.passes.ahead.source_eq ▸ ih hn
  | argument h _ ih => exact h.passes.ahead.source_eq ▸ ih hn
  | unclosedGroup h hp hnext =>
      obtain ⟨hbegun, hinside, hstands, hopen⟩ := h.unclosed hp hnext
      have hpos := h.pos_pos
      refine truthful_of_trueAt hbegun hinside ⟨rfl, hstands, ?_⟩
      have hsaid := SaysOpen.group hopen
      rwa [show toString (_ : Nat) = toString ((_ : Nat) : Int) from rfl,
        Int.toNat_of_nonneg (by omega)] at hsaid
  | @unclosedCall n c c₁ c' h p hp hnext =>
      obtain ⟨hbegun, hinside, hstands, hopen⟩ := h.opens.unclosed hp hnext
      have hcallee : callee c.source (c₁.pos - 1).toNat = c.word :=
        h.passes.ahead.source_eq ▸ h.callee_eq
      have hsaid : SaysOpen c.source c'.pos.toNat _ := .call hopen (hcallee ▸ h.name.nonempty)
      rw [hcallee] at hsaid
      exact truthful_of_trueAt hbegun hinside ⟨rfl, hstands, hsaid⟩
  | @unexpected n c hc hnext hclass =>
      refine truthful_of_trueAt hc.started.begun hc.inside ?_
      have hstands := hc.started.getElem?_pos
      have hinside := hc.inside
      cases hhead : c.rest.head? with
      | none =>
          rw [hhead, List.getElem?_eq_none_iff] at hstands
          exact ⟨rfl, .inl ⟨show c.pos.toNat = c.source.length by omega, rfl⟩⟩
      | some x =>
          rw [hhead] at hstands
          exact ⟨rfl, .inr ⟨x, hstands, rfl, fun hmem => hnext x hmem hhead, hclass x hhead⟩⟩
  | @malformedNumber n c hc hne hno =>
      refine truthful_of_trueAt hc.started.begun hc.inside ⟨rfl, c.rest.takeWhile Cursor.isNumeric,
        ⟨by rw [← hc.started.rest_eq], hne, fun x hx => (hc.apart x hx).1⟩, rfl, ?_⟩
      by_cases hdigit : ∃ x ∈ c.rest.takeWhile Cursor.isNumeric, x ≠ '.'
      · refine Or.inr (Nat.lt_of_not_le fun hpoint => hno ⟨?_, hdigit, hpoint⟩)
        exact of_mem_takeWhile
      · simp only [not_exists, not_and, Decidable.not_not] at hdigit
        exact Or.inl hdigit
  | unknownVariable hc hname hnext hunbound =>
      refine truthful_of_trueAt hc.started.begun hc.inside ⟨_, rfl, ?_, .variable ?_ hunbound⟩
      · rw [String.toList_ofList]
        exact hc.runsAt_word hname
      · rw [String.toList_ofList, hc.started.drop_word]
        exact hnext
  | @unknownMethod n c c₁ c' h hclose hno =>
      have hcloses : (behindSpaces c₁.rest).head? = some ')' := by
        rw [hclose.behindSpaces_eq, List.head?_cons]
      refine truthful_of_trueAt h.entry.started.begun h.entry.inside ⟨_, rfl, ?_,
        .method ?_ hcloses hno⟩
      · rw [String.toList_ofList]
        exact h.entry.runsAt_word h.name
      · rw [String.toList_ofList]
        exact h.behindSpaces_eq
  | @unknownFunction n c c₁ c₂ c' h p hp hhead hno =>
      obtain ⟨text, hrest, hspells⟩ := hp.consumes
      obtain ⟨rest, hclose⟩ := List.head?_eq_some_iff.mp hhead
      have htext : Spells text p.tokens := by simpa using hspells [] [] List.nil_prefix .done
      obtain ⟨tree, htree⟩ :=
        parse_of_spells htext hp.resolved (Nat.le_trans hp.nesting_le hn)
      have hcall : behindSpaces
          (c.source.drop (c.pos.toNat + (String.ofList c.word).toList.length)) =
            '(' :: (text ++ ')' :: rest) := by
        rw [String.toList_ofList, h.behindSpaces_eq, hrest, hclose]
      refine truthful_of_trueAt h.entry.started.begun h.entry.inside ⟨_, rfl, ?_,
        .function hcall htree hno⟩
      rw [String.toList_ofList]
      exact h.entry.runsAt_word h.name

end Grammar

open Grammar in
/-- **What an error of reading reports is true**: its kind, its message with the
place, and the name. -/
theorem parse_error_truthful (scope : Scope) (limit : Int) {source : String} {e : ParseError}
    (h : parse scope limit source = .error e) :
    e.diagnostic.Truthful scope limit source.toList := by
  have hentry := entry_advance_ofSource source
  obtain ⟨c', hread⟩ := parse_eq_error.mp h
  rcases whole_fails scope limit hentry hread with hfails | ⟨rfl, hne, ⟨p, hp⟩, hhalts⟩
  · exact hfails.truthful (Nat.le_refl _)
  · have hstarted := hp.ahead.started
    have hsource : c'.source = source.toList := hp.ahead.source_eq
    obtain ⟨x, rest, hrest⟩ := List.exists_cons_of_ne_nil hne
    have hhead : c'.rest.head? = some x := by rw [hrest, List.head?_cons]
    have hstands : source.toList[c'.pos.toNat]? = some x := by
      rw [← hsource, hstarted.getElem?_pos, hhead]
    have htree := parse_of_spells hp.spells_take hp.resolved hp.nesting_le
    rw [hhead]
    exact truthful_of_trueAt hstarted.begun (hsource ▸ hp.ahead.within hentry.inside)
      ⟨rfl, ⟨x, hstands, rfl, fun hmem => hhalts x hmem hhead⟩, htree⟩

/-- A group in a call, and where it is not closed. -/
theorem parse_error_truthful_group : ∃ e, parse .seeded 100 "log(3*(pi 2" = .error e ∧
    e.diagnostic.text = "Missing ')' (group opened at index 6) at index 10" ∧
    e.diagnostic.Truthful .seeded 100 "log(3*(pi 2".toList := by
  have hread : parse .seeded 100 "log(3*(pi 2" = .error ⟨.unclosedGroup 6, 10⟩ := by
    decide +kernel
  exact ⟨_, hread, by decide +kernel, parse_error_truthful .seeded 100 hread⟩

end Reckon
