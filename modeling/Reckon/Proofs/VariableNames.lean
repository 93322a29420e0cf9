import Mathlib.Control.Monad.Basic
import Reckon.Proofs.Truth
/-!
# Which variables are read

A variable name of a text is a run of letters with no parenthesis behind it; a
name with one is called, whatever variable has the same name (`Names`).  A
source is read with nothing of a scope but what it binds its variable names to
(`parse_reads_named`): where two scopes agree on them the outcome is the same,
and where the second binds more it is the same unless a variable is unknown in
the first.  If a name is bound anew, the trees that refer to it are exchanged,
and nothing else is.

Two scopes are followed side by side (`Carried`), rule by rule.  A rule looks a
name up only where an operand begins and the run of letters is a whole one, so
the names that are looked up are among the variable names of the source.
-/

namespace Reckon

/-- A name stands in a text as a whole run of letters, and behind it, after
spaces, no parenthesis is opened. -/
def Names (text : List Char) (name : String) : Prop :=
  ∃ i, RunsAt Cursor.isAlphabetic text i name.toList ∧
    (behindSpaces (text.drop (i + name.toList.length))).head? ≠ some '('

/-- Looks for a place where the name stands, letter by letter. -/
def isNamed (text : List Char) (name : String) : Bool :=
  (List.range text.length).any fun i =>
    (text.drop i).takeWhile Cursor.isAlphabetic == name.toList && !name.toList.isEmpty &&
      !(text.take i).getLast?.any Cursor.isAlphabetic &&
      (behindSpaces (text.drop (i + name.toList.length))).head? != some '('

/-- The search finds what the definition asks for. -/
theorem isNamed_iff {text : List Char} {name : String} : isNamed text name ↔ Names text name := by
  simp only [isNamed, List.any_eq_true, List.mem_range, Bool.and_eq_true, beq_iff_eq,
    Bool.not_eq_true', bne_iff_ne, List.isEmpty_eq_false_iff]
  constructor
  · rintro ⟨i, -, ⟨⟨hrun, hne⟩, hapart⟩, hnext⟩
    refine ⟨i, ⟨hrun, hne, fun c hc => ?_⟩, hnext⟩
    simpa [hc] using hapart
  · rintro ⟨i, hruns, hnext⟩
    refine ⟨i, ?_, ⟨⟨hruns.run_eq, hruns.nonempty⟩, ?_⟩, hnext⟩
    · by_contra hbeyond
      apply hruns.nonempty
      rw [← hruns.run_eq, List.drop_eq_nil_of_le (Nat.le_of_not_lt hbeyond), List.takeWhile_nil]
    · cases hlast : (text.take i).getLast? with
      | none => rfl
      | some c => exact hruns.apart c hlast

instance (text : List Char) (name : String) : Decidable (Names text name) :=
  decidable_of_iff _ isNamed_iff

namespace Expr

/-- The tree with another one captured wherever it refers to a name.  What was
captured before is not looked into. -/
def recapture (name : String) (producer : Expr) : Expr → Expr
  | .reference p n old => .reference p n (if n = name then producer else old)
  | .unary p op operand => .unary p op (recapture name producer operand)
  | .binary p op left right =>
    .binary p op (recapture name producer left) (recapture name producer right)
  | .call p n argument => .call p n (recapture name producer argument)
  | e => e

/-- A map of trees that can change nothing but references. -/
structure KeepsShape (g : Expr → Expr) : Prop where
  constant : ∀ p x, g (.constant p x) = .constant p x
  method : ∀ p name, g (.method p name) = .method p name
  unary : ∀ p op operand, g (.unary p op operand) = .unary p op (g operand)
  binary : ∀ p op left right, g (.binary p op left right) = .binary p op (g left) (g right)
  call : ∀ p name argument, g (.call p name argument) = .call p name (g argument)

/-- The map that changes nothing keeps the shape. -/
theorem keepsShape_id : KeepsShape id :=
  ⟨fun _ _ => rfl, fun _ _ => rfl, fun _ _ _ => rfl, fun _ _ _ _ => rfl, fun _ _ _ => rfl⟩

/-- An exchange of captured trees keeps the shape. -/
theorem keepsShape_recapture (name : String) (producer : Expr) :
    KeepsShape (recapture name producer) :=
  ⟨fun _ _ => rfl, fun _ _ => rfl, fun _ _ _ => rfl, fun _ _ _ _ => rfl, fun _ _ _ => rfl⟩

end Expr

namespace Grammar

/-! ### Two runs side by side -/

variable {α β : Type}

/-- The second result is the first with its answer mapped, or the first is a
fault at which the second run may go on. -/
def Carried (stop : ParseFault → Prop) (g : α → α) :
    EStateM.Result ParseError Cursor α → EStateM.Result ParseError Cursor α → Prop
  | .ok a c, r => r = .ok (g a) c
  | .error e c, r => stop e.fault ∨ r = .error e c

section Carried

variable {stop : ParseFault → Prop}

/-- A fault is carried by the same fault. -/
theorem Carried.of_error (g : α → α) (e : ParseError) (c : Cursor) :
    Carried stop g (.error e c) (.error e c) :=
  Or.inr rfl

/-- Sequences are carried part by part. -/
theorem Carried.bind {x x' : Rule α} {f f' : α → Rule β} {g : α → α} {k : β → β} {c : Cursor}
    (hx : Carried stop g (x c) (x' c))
    (hf : ∀ a c₁, x c = .ok a c₁ → Carried stop k (f a c₁) (f' (g a) c₁)) :
    Carried stop k ((x >>= f) c) ((x' >>= f') c) := by
  cases hrun : x c with
  | ok a c₁ =>
      rw [hrun] at hx
      rw [bind_of_ok hrun, bind_of_ok hx]
      exact hf a c₁ hrun
  | error e c₁ =>
      rw [hrun] at hx
      rw [bind_eq_error.mpr (.inl hrun)]
      rcases hx with hstop | hsame
      · exact Or.inl hstop
      · exact Or.inr (bind_eq_error.mpr (.inl hsame))

/-- What follows the same first part. -/
theorem Carried.behind {x : Rule α} {f f' : α → Rule β} {k : β → β} {c : Cursor}
    (hf : ∀ a c₁, x c = .ok a c₁ → Carried stop k (f a c₁) (f' a c₁)) :
    Carried stop k ((x >>= f) c) ((x >>= f') c) := by
  have hsame : Carried stop id (x c) (x c) := by
    cases x c with
    | ok a c₁ => exact rfl
    | error e c₁ => exact Or.inr rfl
  exact hsame.bind hf

end Carried

/-! ### Rule by rule -/

/-- What two scopes bind the variable names of a text to: the second what the
first does, with the references mapped; where the first binds nothing, the
second does not either or the first run has an unknown variable. -/
def Binds (text : List Char) (stop : ParseFault → Prop) (g : Expr → Expr) (scope scope' : Scope) :
    Prop :=
  ∀ name, Names text name →
    match scope.find? name with
    | some producer => ∃ producer', scope'.find? name = some producer' ∧
        ∀ p, g (.reference p name producer) = .reference p name producer'
    | none => stop (.unknownVariable name) ∨ scope'.find? name = none

section Binds

variable {text : List Char} {scope scope' : Scope}

/-- Scopes that agree leave every reference as it is. -/
theorem binds_of_agree (h : ∀ name, Names text name → scope'.find? name = scope.find? name) :
    Binds text (fun _ => False) id scope scope' := by
  intro name hname
  rw [h name hname]
  cases scope.find? name with
  | some producer => exact ⟨producer, rfl, fun _ => rfl⟩
  | none => exact Or.inr rfl

/-- A scope that binds more leaves every reference as it is, and may bind what
was unknown. -/
theorem binds_of_more (h : ∀ name producer, Names text name →
    scope.find? name = some producer → scope'.find? name = some producer) :
    Binds text (fun f => ∃ name, f = .unknownVariable name) id scope scope' := by
  intro name hname
  cases hfind : scope.find? name with
  | some producer => exact ⟨producer, h name producer hname hfind, fun _ => rfl⟩
  | none => exact Or.inl ⟨name, rfl⟩

/-- A scope in which one name is bound anew exchanges the references to it. -/
theorem binds_bind (text : List Char) (scope : Scope) (name : String) (producer : Expr) :
    Binds text (fun f => f = .unknownVariable name) (Expr.recapture name producer) scope
      (scope.bind name producer) := by
  intro other _
  by_cases hother : other = name
  · subst hother
    rw [Scope.find?_bind_self]
    cases scope.find? other with
    | some old => exact ⟨producer, rfl, fun p => by simp [Expr.recapture]⟩
    | none => exact Or.inl rfl
  · rw [Scope.find?_bind_of_ne hother]
    cases scope.find? other with
    | some old => exact ⟨old, rfl, fun p => by simp [Expr.recapture, hother]⟩
    | none => exact Or.inr rfl

end Binds

/-- Wherever an operand begins in the text, the second rule has what the first
has. -/
def Carries (text : List Char) (stop : ParseFault → Prop) (g : Expr → Expr)
    (rule rule' : Rule Expr) : Prop :=
  ∀ ⦃c : Cursor⦄, c.Entry → c.source = text → Carried stop g (rule c) (rule' c)

section Rules

variable {text : List Char} {stop : ParseFault → Prop} {g : Expr → Expr} {scope scope' : Scope}

/-- A reference to a variable name of the text is mapped. -/
theorem reference_carried (hbinds : Binds text stop g scope scope') {name : String}
    (hname : Names text name) (start : Int) (c : Cursor) :
    Carried stop g (reference scope name start c) (reference scope' name start c) := by
  have hlookup := hbinds name hname
  unfold reference
  cases hfind : scope.find? name with
  | some producer =>
      rw [hfind] at hlookup
      obtain ⟨producer', hfind', hmap⟩ := hlookup
      rw [hfind']
      show _ = _
      rw [hmap]
      rfl
  | none =>
      rw [hfind] at hlookup
      rcases hlookup with hstop | hnone
      · exact Or.inl hstop
      · rw [hnone]
        exact .of_error g _ _

variable (hg : Expr.KeepsShape g)

include hg

/-- A number asks no scope. -/
theorem number_carried (c : Cursor) : Carried stop g (number c) (number c) := by
  rw [number_eq]
  cases Double.ofNumeral? (c.scan Cursor.isNumeric).1 with
  | some value => exact congrArg (EStateM.Result.ok · _) (hg.constant _ _).symm
  | none => exact .of_error g _ _

/-- A method asks no scope. -/
theorem method_carried (name : String) (start : Int) (c : Cursor) :
    Carried stop g (method name start c) (method name start c) := by
  unfold method
  split
  · exact congrArg (EStateM.Result.ok · _) (hg.method _ _).symm
  · exact .of_error g _ _

variable {expression expression' : Rule Expr}
  (hexp : Carries text stop g expression expression') (hbinds : Binds text stop g scope scope')

include hexp

/-- A call is carried if its argument is. -/
theorem call_carried (name : String) (start : Int) {c : Cursor} (hc : c.Entry)
    (hsource : c.source = text) :
    Carried stop g (call expression name start c) (call expression' name start c) := by
  refine (hexp hc hsource).bind fun argument c₁ _ => .behind fun closed c₂ _ => ?_
  cases closed with
  | false => exact .of_error g _ _
  | true =>
      simp only [if_true]
      split
      · exact congrArg (EStateM.Result.ok · _) (hg.call _ _ _).symm
      · exact .of_error g _ _

include hbinds

/-- A name is a variable name of the text only where no parenthesis follows, and
else asks no scope. -/
theorem identifier_carried {c : Cursor} (hc : c.Entry) (hsource : c.source = text)
    (hname : IsName c.word) :
    Carried stop g (identifier scope expression c) (identifier scope' expression' c) := by
  have hahead := Cursor.Ahead.ahead_scan hc.started Cursor.isAlphabetic
  rw [identifier_eq, identifier_eq]
  refine .behind fun called c₁ heat => ?_
  cases called with
  | false =>
      obtain ⟨hnext, -⟩ := eat_eq_false heat
      rw [Cursor.rest_skipSpaces, ← hc.started.drop_word, hsource] at hnext
      have hruns := hc.runsAt_word hname
      rw [hsource] at hruns
      refine reference_carried hbinds ⟨c.pos.toNat, ?_, ?_⟩ _ _
      · rwa [String.toList_ofList]
      · rwa [String.toList_ofList]
  | true =>
      have hopens : Eaten '(' (c.scan Cursor.isAlphabetic).2 c₁ :=
        ⟨hahead.started, hahead.within hc.inside, by decide, heat⟩
      have hsource₁ : c₁.source = text := hopens.passes.ahead.source_eq.trans hsource
      refine .behind fun closed c₂ heat => ?_
      cases closed with
      | true => exact method_carried hg _ _ _
      | false =>
          obtain ⟨-, rfl⟩ := eat_eq_false heat
          exact call_carried hg hexp _ _ hopens.entry.skipSpaces hsource₁

/-- A base is carried if the expressions in it are. -/
theorem base_carries : Carries text stop g (base scope expression) (base scope' expression') := by
  intro c hc hsource
  refine .behind fun opened c₁ heat => ?_
  cases opened with
  | true =>
      have hopens : Eaten '(' c c₁ := ⟨hc.started, hc.inside, by decide, heat⟩
      refine .behind fun place c₂ hplace => ?_
      cases hplace
      have hsource₁ := hopens.passes.ahead.source_eq.trans hsource
      refine (hexp hopens.entry hsource₁).bind fun inner c₃ _ => .behind fun closed c₄ _ => ?_
      cases closed with
      | true => exact rfl
      | false => exact .of_error g _ _
  | false =>
      obtain ⟨-, rfl⟩ := eat_eq_false heat
      refine .behind fun found c₂ hfound => ?_
      rw [current_eq] at hfound
      cases hfound
      cases hx : c.skipSpaces.rest.head? with
      | none => exact .of_error g _ _
      | some x =>
          obtain ⟨rest, hrest⟩ := List.head?_eq_some_iff.mp hx
          simp only
          split
          · exact number_carried hg _
          · split
            · next halpha =>
                have hname : IsName c.skipSpaces.word :=
                  ⟨by simp [Cursor.word, hrest, halpha], of_mem_takeWhile⟩
                exact identifier_carried hg hexp hbinds hc.skipSpaces hsource hname
            · exact .of_error g _ _

omit hbinds hexp

/-- A chain is carried turn by turn. -/
theorem chain_carried {r : Rank} {operand operand' : Rule Expr}
    (hop : Carries text stop g operand operand') (hmoves : Moves operand) (left : List Char) :
    ∀ {tree : Expr} {c : Cursor}, c.Started → c.pos ≤ c.source.length → c.source = text →
      Carried stop g (chain operand r.signs left tree c)
        (chain operand' r.signs left (g tree) c) := by
  induction left with
  | nil =>
      intro tree c hc hinside hsource
      exact rfl
  | cons _ left ih =>
      intro tree c hc hinside hsource
      refine .behind fun found c₁ hfound => ?_
      cases found with
      | none => exact rfl
      | some sign =>
          obtain ⟨-, heaten⟩ := eatAny_some_eaten (signs_subset_marks r) hc hinside hfound
          have hentry := heaten.entry
          have hsource₁ := heaten.passes.ahead.source_eq.trans hsource
          refine .behind fun place c₂ hplace => ?_
          cases hplace
          refine (hop hentry hsource₁).bind fun right c₃ hright => ?_
          have hahead := hmoves.ok hentry.started hright
          rw [← hg.binary]
          exact ih hahead.started (hahead.within hentry.inside)
            (hahead.source_eq.trans hsource₁)

/-- A level of operations is carried if its operands are. -/
theorem operations_carries {r : Rank} {operand operand' : Rule Expr}
    (hop : Carries text stop g operand operand') (hmoves : Moves operand) :
    Carries text stop g (operations operand r.signs) (operations operand' r.signs) := by
  intro c hc hsource
  refine (hop hc hsource).bind fun first c₁ hfirst => .behind fun c₂ c₃ hget => ?_
  cases hget
  have hahead := hmoves.ok hc.started hfirst
  exact chain_carried hg hop hmoves _ hahead.started (hahead.within hc.inside)
    (hahead.source_eq.trans hsource)

/-- An expression is carried if its factors are. -/
theorem expression_carries {factor factor' : Rule Expr}
    (hfactor : Carries text stop g factor factor') (hmoves : Moves factor) :
    Carries text stop g (Grammar.expression factor) (Grammar.expression factor') :=
  operations_carries hg (r := .sum)
    (operations_carries hg (r := .product) hfactor hmoves) (operations_moves hmoves _)

include hbinds

/-- **A factor is read under the second scope as under the first.** -/
theorem factor_carries (limit : Int) (n : Nat) :
    Carries text stop g (factor scope limit n) (factor scope' limit n) := by
  induction n with
  | zero => exact fun _ _ _ => .of_error g _ _
  | succ n ih =>
      have hmoves := factor_moves scope limit n
      have hexp := expression_carries hg ih hmoves
      intro c hc hsource
      refine .behind fun found c₁ hfound => ?_
      have hsource₁ := ((eatAny_moves _).ok hc.started hfound).source_eq.trans hsource
      cases found with
      | some sign =>
          obtain ⟨-, heaten⟩ :=
            eatAny_some_eaten (signs_subset_marks .sum) hc.started hc.inside hfound
          refine .behind fun place c₂ hplace => ?_
          cases hplace
          refine (ih heaten.entry hsource₁).bind fun operand c₃ _ => ?_
          exact congrArg (EStateM.Result.ok · _) (hg.unary _ _ _).symm
      | none =>
          have hentry := eatAny_none_entry hc hfound
          refine (base_carries hg hexp hbinds hentry hsource₁).bind fun bottom c₂ hbottom =>
            .behind fun raised c₃ heat => ?_
          cases raised with
          | false => exact rfl
          | true =>
              have hahead := (moves_stepwise.base scope (expression_moves scope limit n)).ok
                hentry.started hbottom
              have heaten : Eaten '^' c₂ c₃ :=
                ⟨hahead.started, hahead.within hentry.inside, by decide, heat⟩
              have hsource₃ : c₃.source = text :=
                heaten.passes.ahead.source_eq.trans (hahead.source_eq.trans hsource₁)
              refine .behind fun place c₄ hplace => ?_
              cases hplace
              refine (ih heaten.entry hsource₃).bind fun exponent c₅ _ => ?_
              exact congrArg (EStateM.Result.ok · _) (hg.binary _ _ _ _).symm

/-- A whole source is carried. -/
theorem whole_carried (limit : Int) {c : Cursor} (hc : c.Entry) (hsource : c.source = text) :
    Carried stop g (whole scope limit c) (whole scope' limit c) := by
  have hexp := expression_carries hg (factor_carries hg hbinds limit (allowance limit 0))
    (factor_moves scope limit _)
  refine (hexp hc hsource).bind fun tree c₁ _ => .behind fun c₂ c₃ hget => ?_
  cases hget
  cases c₁.atEnd with
  | true => exact rfl
  | false => exact .of_error g _ _

/-- **A source is read under the second scope as under the first**, unless it
fails under the first in a way that the second may mend. -/
theorem parse_carried (limit : Int) {source : String} (htext : source.toList = text)
    (hstop : ∀ e, parse scope limit source = .error e → ¬ stop e.fault) :
    parse scope' limit source = (parse scope limit source).map g := by
  have hcarried := whole_carried hg hbinds limit (entry_advance_ofSource source) htext
  unfold parse at hstop ⊢
  cases hrun : whole scope limit (Cursor.ofSource source).advance with
  | ok tree c =>
      rw [hrun] at hcarried
      rw [hcarried]
      rfl
  | error e c =>
      rw [hrun] at hcarried hstop
      rcases hcarried with hstops | hsame
      · exact absurd hstops (hstop e rfl)
      · rw [hsame]
        rfl

end Rules

end Grammar

open Grammar in
/-- **Of a scope only the variable names of the source are read.**  Scopes that
agree on them give the same outcome, and so does one that binds more of them,
unless one is unknown under the first.  So a variable that is only called, or
does not occur, is not looked at; and one that is bound anew is exchanged where
it is referred to, with no change to any call. -/
theorem parse_reads_named (limit : Int) (source : String) :
    (∀ scope scope' : Scope,
      (∀ name, Names source.toList name → scope'.find? name = scope.find? name) →
      parse scope' limit source = parse scope limit source) ∧
    (∀ scope scope' : Scope,
      (∀ name producer, Names source.toList name → scope.find? name = some producer →
        scope'.find? name = some producer) →
      (∀ name p, parse scope limit source ≠ .error ⟨.unknownVariable name, p⟩) →
      parse scope' limit source = parse scope limit source) ∧
    (∀ (scope : Scope) (name : String) (producer : Expr), ¬ Names source.toList name →
      parse (scope.bind name producer) limit source = parse scope limit source) ∧
    ∀ (scope : Scope) (name : String) (producer : Expr),
      (∀ p, parse scope limit source ≠ .error ⟨.unknownVariable name, p⟩) →
      parse (scope.bind name producer) limit source =
        (parse scope limit source).map (Expr.recapture name producer) := by
  have hagree : ∀ scope scope' : Scope,
      (∀ name, Names source.toList name → scope'.find? name = scope.find? name) →
      parse scope' limit source = parse scope limit source := by
    intro scope scope' hsame
    have hmap := parse_carried Expr.keepsShape_id (binds_of_agree hsame) limit rfl fun _ _ => id
    rwa [Except.map_id] at hmap
  refine ⟨hagree, ?_, ?_, ?_⟩
  · intro scope scope' hmore hknown
    have hmap := parse_carried Expr.keepsShape_id (binds_of_more hmore) limit rfl ?_
    · rwa [Except.map_id] at hmap
    · rintro ⟨fault, p⟩ he ⟨name, rfl⟩
      exact hknown name p he
  · intro scope name producer hunnamed
    apply hagree
    intro other hother
    apply Scope.find?_bind_of_ne
    rintro rfl
    exact hunnamed hother
  · intro scope name producer hknown
    apply parse_carried (Expr.keepsShape_recapture name producer) (binds_bind _ _ _ _) limit rfl
    rintro ⟨fault, p⟩ he rfl
    exact hknown p he

/-- In this source `abs` is a variable once and a function once, `sqrt` is only a
function, and `e` does not occur. -/
theorem parse_reads_named_abs : ∃ scope : Scope, scope = Scope.seeded.bind "abs" (.constant 0 2) ∧
    (parse scope 100 "abs(abs) - sqrt(pi)").isOk ∧
    parse (scope.bind "e" .absent) 100 "abs(abs) - sqrt(pi)" =
      parse scope 100 "abs(abs) - sqrt(pi)" ∧
    parse (scope.bind "tau" .absent) 100 "abs(abs) - sqrt(pi)" =
      parse scope 100 "abs(abs) - sqrt(pi)" ∧
    parse (scope.bind "sqrt" .absent) 100 "abs(abs) - sqrt(pi)" =
      parse scope 100 "abs(abs) - sqrt(pi)" ∧
    parse (scope.bind "abs" (.bare 0)) 100 "abs(abs) - sqrt(pi)" =
      (parse scope 100 "abs(abs) - sqrt(pi)").map (Expr.recapture "abs" (.bare 0)) := by
  have hread : (parse (Scope.seeded.bind "abs" (.constant 0 2)) 100 "abs(abs) - sqrt(pi)").isOk :=
    by decide +kernel
  have hknown : ∀ e, parse (Scope.seeded.bind "abs" (.constant 0 2)) 100 "abs(abs) - sqrt(pi)" ≠
      .error e := by
    intro e he
    rw [he] at hread
    cases hread
  have hunnamed : ∀ name ∈ ["e", "tau", "sqrt"], ¬ Names "abs(abs) - sqrt(pi)".toList name := by
    decide +kernel
  refine ⟨_, rfl, hread, ?_, ?_, ?_, ?_⟩
  · refine (parse_reads_named 100 _).1 _ _ fun other hnamed => ?_
    apply Scope.find?_bind_of_ne
    rintro rfl
    exact hunnamed "e" (by decide) hnamed
  · refine (parse_reads_named 100 _).2.1 _ _ (fun other producer hnamed hfind => ?_)
      fun _ _ => hknown _
    rwa [Scope.find?_bind_of_ne]
    rintro rfl
    exact hunnamed "tau" (by decide) hnamed
  · exact (parse_reads_named 100 _).2.2.1 _ "sqrt" .absent (hunnamed "sqrt" (by decide))
  · exact (parse_reads_named 100 _).2.2.2 _ "abs" (.bare 0) fun _ => hknown _

end Reckon
