import Mathlib.Control.Monad.Basic
import Reckon.Proofs.ExpandedText
import Reckon.Proofs.Failure
import Reckon.Proofs.Lookahead
/-!
# Errors at the first impossible character

An unexpected character, an unclosed group and trailing input are reported at
the first character that cannot stand where it does (`parse_error_first`).  No
source that begins with the same characters, that one included, is read; but
what comes before it can be completed to a source that is.

What completes it is the operand that is missing and whatever closes the groups
and calls that are open (`Fails.completes`).  A call that is closed must be of a
function.
-/

namespace Reckon

/-- The rule stopped where it could not go on, and not because of what it had
read. -/
def FaultKind.stops : FaultKind → Bool
  | .unexpectedCharacter | .unclosedGroup | .trailingInput => true
  | .malformedNumber | .unknownIdentifier | .nestingTooDeep | .settings => false

/-- Tokens that can be written behind any text. -/
def Detached (ts : List Token) : Prop :=
  ∃ m cs, Cursor.isNumeric m = false ∧ Cursor.isAlphabetic m = false ∧ Spells (m :: cs) ts

/-- A parenthesis may be closed behind what is detached. -/
theorem Detached.close {ts : List Token} (h : Detached ts) : Detached (ts ++ [.mark ')']) := by
  obtain ⟨m, cs, hnumeric, halphabetic, hspells⟩ := h
  have hclose : Spells [')'] [.mark ')'] := .mark (by decide) .done
  exact ⟨m, cs ++ [')'], hnumeric, halphabetic, hspells.append (by decide) hclose⟩

/-- A closing parenthesis joins no run. -/
theorem detached_close : Detached [.mark ')'] :=
  ⟨')', [], by decide, by decide, .mark (by decide) .done⟩

/-- An operand, behind a space. -/
theorem detached_numeral {text : List Char} (h : IsNumeral text) : Detached [.numeral text] := by
  have hspells : Spells (text ++ []) [.numeral text] := .numeral_append h (by simp) .done
  rw [List.append_nil] at hspells
  exact ⟨' ', text, by decide, by decide, .space hspells⟩

/-- The numeral that is put where an operand is missing. -/
theorem isNumeral_one : IsNumeral ['1'] :=
  ⟨by simp [Cursor.isNumeric], ⟨'1', List.mem_singleton_self _, by decide⟩, by decide⟩

namespace Grammar

variable {scope : Scope} {limit : Int} {n : Nat}

/-- A phrase that begins with the tokens `used`, to which `more` are added. -/
structure Completes (scope : Scope) (n : Nat) {part : Part} (p : Phrase part)
    (used more : List Token) : Prop where
  tokens_eq : p.tokens = used ++ more
  detached : Detached more
  resolved : p.Resolved scope
  nesting_le : p.nesting ≤ n

namespace Completes

variable {used more : List Token} {r : Rank}

/-- Beginnings of phrases close nothing but what they open. -/
theorem isSome_paired {part : Part} {p : Phrase part} (h : Completes scope n p used more) :
    (used.foldlM Token.paired 0).isSome := by
  have hall := p.foldlM_paired 0
  rw [h.tokens_eq, List.foldlM_append] at hall
  obtain ⟨depth, hdepth, -⟩ := Option.bind_eq_some_iff.mp hall
  rw [hdepth]
  rfl

/-- An operand alone is a chain. -/
theorem first {p : Phrase r.operand} (h : Completes scope n p used more) :
    Completes scope n (.chain p .stop) used more := by
  refine ⟨?_, h.detached, ⟨h.resolved, trivial⟩, Nat.max_le.mpr ⟨h.nesting_le, Nat.zero_le _⟩⟩
  rw [Phrase.tokens, h.tokens_eq, Phrase.tokens, List.append_nil]

/-- A chain is completed in its links, behind a whole first operand. -/
theorem behind {q : Phrase r.operand} (hresolved : q.Resolved scope) (hnesting : q.nesting ≤ n)
    {p : Phrase (.links r)} (h : Completes scope n p used more) :
    Completes scope n (.chain q p) (q.tokens ++ used) more := by
  refine ⟨?_, h.detached, ⟨hresolved, h.resolved⟩, Nat.max_le.mpr ⟨hnesting, h.nesting_le⟩⟩
  rw [Phrase.tokens, h.tokens_eq, List.append_assoc]

/-- An operator and an operand are links. -/
theorem operand {sign : Char} (hsign : sign ∈ r.signs) {p : Phrase r.operand}
    (h : Completes scope n p used more) :
    Completes scope n (.link sign hsign p .stop) (.mark sign :: used) more := by
  refine ⟨?_, h.detached, ⟨h.resolved, trivial⟩, Nat.max_le.mpr ⟨h.nesting_le, Nat.zero_le _⟩⟩
  rw [Phrase.tokens, h.tokens_eq, Phrase.tokens, List.append_nil, List.cons_append]

/-- A chain is completed further on, behind a whole link. -/
theorem later {sign : Char} (hsign : sign ∈ r.signs) {q : Phrase r.operand}
    (hresolved : q.Resolved scope) (hnesting : q.nesting ≤ n) {p : Phrase (.links r)}
    (h : Completes scope n p used more) :
    Completes scope n (.link sign hsign q p) (.mark sign :: (q.tokens ++ used)) more := by
  refine ⟨?_, h.detached, ⟨hresolved, h.resolved⟩, Nat.max_le.mpr ⟨hnesting, h.nesting_le⟩⟩
  rw [Phrase.tokens, h.tokens_eq, List.cons_append, List.append_assoc]

/-- A factor with a sign is completed in its operand. -/
theorem signed {sign : Char} (hsign : sign ∈ Rank.sum.signs) {p : Phrase .factor}
    (h : Completes scope n p used more) :
    Completes scope (n + 1) (.signed sign hsign p) (.mark sign :: used) more := by
  refine ⟨?_, h.detached, h.resolved, Nat.succ_le_succ h.nesting_le⟩
  rw [Phrase.tokens, h.tokens_eq, List.cons_append]

/-- A factor is completed in its base. -/
theorem bottom {p : Phrase .base} (h : Completes scope n p used more) :
    Completes scope (n + 1) (.plain p) used more :=
  ⟨h.tokens_eq, h.detached, h.resolved, Nat.succ_le_succ h.nesting_le⟩

/-- A power is completed in its exponent. -/
theorem exponent {q : Phrase .base} (hresolved : q.Resolved scope) (hnesting : q.nesting ≤ n)
    {p : Phrase .factor} (h : Completes scope n p used more) :
    Completes scope (n + 1) (.power q p) (q.tokens ++ .mark '^' :: used) more := by
  refine ⟨?_, h.detached, ⟨hresolved, h.resolved⟩,
    Nat.succ_le_succ (Nat.max_le.mpr ⟨hnesting, h.nesting_le⟩)⟩
  rw [Phrase.tokens, h.tokens_eq, List.append_assoc, List.cons_append]

/-- A group is closed behind what completes its inside. -/
theorem inner {p : Phrase .expression} (h : Completes scope n p used more) :
    Completes scope n (.group p) (.mark '(' :: used) (more ++ [.mark ')']) := by
  refine ⟨?_, h.detached.close, h.resolved, h.nesting_le⟩
  rw [Phrase.tokens, h.tokens_eq, List.append_assoc, List.cons_append]

/-- A call is completed in its argument, and then closed. -/
theorem argument {name : List Char} (hname : IsName name)
    (hfunction : (Function.ofName? (String.ofList name)).isSome) {p : Phrase .expression}
    (h : Completes scope n p used more) :
    Completes scope n (.call name hname p) (.name name :: .mark '(' :: used)
      (more ++ [.mark ')']) := by
  refine ⟨?_, h.detached.close, ⟨hfunction, h.resolved⟩, h.nesting_le⟩
  rw [Phrase.tokens, h.tokens_eq, List.append_assoc, List.cons_append, List.cons_append]

end Completes

/-- The name of a call that is left open is among those that are. -/
theorem Called.isSome_function {c c₁ c' : Cursor} {used : List Token} (h : Called c c₁)
    (hpasses : Passes c₁ c' used) (hused : (used.foldlM Token.paired 0).isSome)
    (hcalls : ∀ name ∈ openCalls (c'.source.take c'.pos.toNat),
      (Function.ofName? (String.ofList name)).isSome) :
    (Function.ofName? (String.ofList c.word)).isSome := by
  have hsource : c'.source = c.source := (h.passes.ahead.trans hpasses.ahead).source_eq
  rw [hsource] at hcalls
  have hopen : LeavesOpen (c.source.take c'.pos.toNat) (c₁.pos - 1).toNat :=
    h.opens.leavesOpen hpasses hused
  have hpos := hpasses.ahead.pos_le
  have hcallee : callee (c.source.take c'.pos.toNat) (c₁.pos - 1).toNat = c.word := by
    rw [callee_take _ (by omega), ← h.passes.ahead.source_eq, h.callee_eq]
  have hmem := hopen.callee_mem (hcallee ▸ h.name.nonempty)
  exact hcalls c.word (hcallee ▸ hmem)

/-- **What was read of a phrase can be completed**, if the calls that it leaves
open are of functions. -/
theorem Fails.completes {part : Part} {c c' : Cursor} {e : ParseError}
    (h : Fails scope limit part n c e c') (hkind : e.fault.kind.stops)
    (hcalls : ∀ name ∈ openCalls (c'.source.take c'.pos.toNat),
      (Function.ofName? (String.ofList name)).isSome) :
    ∃ (p : Phrase part) (used more : List Token), Passes c c' used ∧
      Completes scope n p used more := by
  induction h with
  | spaces h _ ih =>
      obtain ⟨p, used, more, hpasses, hp⟩ := ih hkind hcalls
      exact ⟨p, used, more, h.trans hpasses, hp⟩
  | first _ ih =>
      obtain ⟨p, used, more, hpasses, hp⟩ := ih hkind hcalls
      exact ⟨_, _, _, hpasses, hp.first⟩
  | behind hq _ ih =>
      obtain ⟨p, used, more, hpasses, hp⟩ := ih hkind hcalls
      exact ⟨_, _, _, hq.trans hpasses, hp.behind hq.resolved hq.nesting_le⟩
  | operand hsign h _ ih =>
      obtain ⟨p, used, more, hpasses, hp⟩ := ih hkind hcalls
      exact ⟨_, _, _, h.passes.trans hpasses, hp.operand hsign⟩
  | later hsign h hq _ ih =>
      obtain ⟨p, used, more, hpasses, hp⟩ := ih hkind hcalls
      exact ⟨_, _, _, h.passes.trans (hq.trans hpasses),
        hp.later hsign hq.resolved hq.nesting_le⟩
  | signed hsign h _ ih =>
      obtain ⟨p, used, more, hpasses, hp⟩ := ih hkind hcalls
      exact ⟨_, _, _, h.passes.trans hpasses, hp.signed hsign⟩
  | bottom _ ih =>
      obtain ⟨p, used, more, hpasses, hp⟩ := ih hkind hcalls
      exact ⟨_, _, _, hpasses, hp.bottom⟩
  | exponent hq h _ ih =>
      obtain ⟨p, used, more, hpasses, hp⟩ := ih hkind hcalls
      exact ⟨_, _, _, hq.trans (h.passes.trans hpasses), hp.exponent hq.resolved hq.nesting_le⟩
  | inner h _ ih =>
      obtain ⟨p, used, more, hpasses, hp⟩ := ih hkind hcalls
      exact ⟨_, _, _, h.passes.trans hpasses, hp.inner⟩
  | argument h _ ih =>
      obtain ⟨p, used, more, hpasses, hp⟩ := ih hkind hcalls
      have hfunction := h.isSome_function hpasses hp.isSome_paired hcalls
      exact ⟨_, _, _, h.passes.trans hpasses, hp.argument h.name hfunction⟩
  | @unclosedGroup n c c₁ c' h q hq _ =>
      exact ⟨.group q, _, [.mark ')'], h.passes.trans hq.toPasses, rfl, detached_close,
        hq.resolved, hq.nesting_le⟩
  | @unclosedCall n c c₁ c' h q hq _ =>
      have hfunction := h.isSome_function hq.toPasses (by simp [q.foldlM_paired]) hcalls
      exact ⟨.call _ h.name q, _, [.mark ')'], h.passes.trans hq.toPasses, rfl, detached_close,
        ⟨hfunction, hq.resolved⟩, hq.nesting_le⟩
  | @unexpected n c hc _ _ =>
      exact ⟨.number ['1'] isNumeral_one, [], [.numeral ['1']], ⟨.refl hc.started, .refl c⟩, rfl,
        detached_numeral isNumeral_one, trivial, Nat.zero_le _⟩
  | tooDeep | malformedNumber | unknownVariable | unknownMethod | unknownFunction =>
      exact absurd hkind (by simp [FaultKind.stops, ParseFault.kind])

/-- Where a rule cannot go on the error is at the cursor; and nothing is left
over behind an expression that is not there. -/
theorem Fails.stops_at {part : Part} {c c' : Cursor} {e : ParseError}
    (h : Fails scope limit part n c e c') :
    e.fault.kind ≠ .trailingInput ∧ (e.fault.kind.stops → e.position = c'.pos) := by
  induction h with
  | spaces _ _ ih | first _ ih | behind _ _ ih | operand _ _ _ ih | later _ _ _ _ ih
  | signed _ _ _ ih | bottom _ ih | exponent _ _ _ ih | inner _ _ ih | argument _ _ ih => exact ih
  | unclosedGroup | unclosedCall | unexpected => exact ⟨by simp [ParseFault.kind], fun _ => rfl⟩
  | tooDeep | malformedNumber | unknownVariable | unknownMethod | unknownFunction =>
      simp [FaultKind.stops, ParseFault.kind]

/-- In a source that agrees up to the place where the rule stopped it fails the
same way. -/
theorem parse_eq_error_of_take_eq {source other : String} {e : ParseError} {c' : Cursor} {q : Nat}
    (hread : whole scope limit (Cursor.ofSource source).advance = .error e c') (hq : c'.pos ≤ q)
    (hinside : q < source.toList.length)
    (hagree : source.toList.take (q + 1) = other.toList.take (q + 1)) :
    parse scope limit other = .error e := by
  have hstart : Cursor.Agree q (Cursor.ofSource source).advance (Cursor.ofSource other).advance :=
    ⟨Cursor.started_advance_ofSource source, Cursor.started_advance_ofSource other, rfl, hagree,
      hinside⟩
  have hsame := (whole_sighted scope limit).same hstart (by simpa only [leaves, hread] using hq)
  rw [hread] at hsame
  obtain ⟨e', d, hread', rfl⟩ := hsame.of_error
  exact parse_eq_error.mpr ⟨d, hread'⟩

end Grammar

open Grammar in
/-- **Errors are found at the first impossible character.**  Where the rule
stopped for what stands there, no source that agrees so far is read; but what
stands before the place can be completed, if every call that it leaves open is
of a function.  Where only the rest is in the way, nothing need be added. -/
theorem parse_error_first (scope : Scope) (limit : Int) {source : String} {e : ParseError}
    (h : parse scope limit source = .error e) (hkind : e.fault.kind.stops) :
    0 ≤ e.position ∧
    (e.position < source.toList.length → ∀ other : String,
      other.toList.take (e.position.toNat + 1) = source.toList.take (e.position.toNat + 1) →
        parse scope limit other = .error e) ∧
    ((∀ name ∈ openCalls (source.toList.take e.position.toNat),
        (Function.ofName? (String.ofList name)).isSome) →
      ∃ more : List Char, (e.fault.kind = .trailingInput → more = []) ∧ ∃ tree,
        parse scope limit (String.ofList (source.toList.take e.position.toNat ++ more)) =
          .ok tree) := by
  have hentry := entry_advance_ofSource source
  obtain ⟨c', hread⟩ := parse_eq_error.mp h
  have hwhole := whole_fails scope limit hentry hread
  have hposition : e.position = c'.pos := by
    rcases hwhole with hfails | ⟨rfl, -⟩
    · exact hfails.stops_at.2 hkind
    · rfl
  have hahead : (Cursor.ofSource source).advance.Ahead c' := by
    simpa only [leaves, hread] using (whole_sighted (q := 0) scope limit).moves _ hentry.started
  have hsource : c'.source = source.toList := hahead.source_eq
  have hbegun : 0 ≤ e.position := hposition ▸ hahead.started.begun
  refine ⟨hbegun, fun hinside other hagree => ?_, fun hcalls => ?_⟩
  · exact parse_eq_error_of_take_eq hread (hposition ▸ Int.self_le_toNat _) (by omega) hagree.symm
  · rw [hposition] at hcalls ⊢
    rcases hwhole with hfails | ⟨rfl, -, ⟨p, hp⟩, -⟩
    · rw [← hsource] at hcalls
      obtain ⟨p, used, more, hpasses, hp⟩ := hfails.completes hkind hcalls
      obtain ⟨m, cs, hnumeric, halphabetic, hspells⟩ := hp.detached
      have hall := hpasses.spells_take.append_apart hnumeric halphabetic hspells
      rw [← hp.tokens_eq] at hall
      exact ⟨m :: cs, fun htrailing => absurd htrailing hfails.stops_at.1,
        parse_of_spells hall hp.resolved hp.nesting_le⟩
    · refine ⟨[], fun _ => rfl, ?_⟩
      rw [List.append_nil]
      exact parse_of_spells hp.spells_take hp.resolved hp.nesting_le

/-- An operand is missing in a group in a call. -/
theorem parse_error_first_call :
    parse .seeded 100 "sqrt(2*(3+)" = .error ⟨.unexpected (some ')'), 10⟩ ∧
    parse .seeded 100 "sqrt(2*(3+) - pi))" = .error ⟨.unexpected (some ')'), 10⟩ ∧
    ∃ more tree, parse .seeded 100 (String.ofList ("sqrt(2*(3+".toList ++ more)) = .ok tree := by
  have hread : parse .seeded 100 "sqrt(2*(3+)" = .error ⟨.unexpected (some ')'), 10⟩ := by
    decide +kernel
  obtain ⟨-, hsame, hmore⟩ := parse_error_first .seeded 100 hread (by decide)
  obtain ⟨more, -, tree, htree⟩ := hmore (by decide +kernel)
  refine ⟨hread, hsame (by decide +kernel) _ (by decide +kernel), more, tree, ?_⟩
  exact htree

end Reckon
