import Reckon.Proofs.Methods
/-!
# What the methods of a parser keep to

A rule that succeeds consumes something (`factor_shortens`), besides going as
far as it can and never back.  So a method, which does what its rule does, comes
to an end wherever the cursor stands in its source, and leaves all of the parser
but the cursor as it was (`contract_of_rule`).

A parser that begins in no factor is in none after any uses (`Idle.after`), and
a whole source is read as by a fresh one (`Idle.parse_fresh`).
-/

namespace Reckon

namespace Grammar

/-! ### A rule that succeeds consumes something -/

/-- Behind a rule that succeeds less is left. -/
def Shortens {α : Type} (rule : Rule α) : Prop :=
  ∀ ⦃c c' : Cursor⦄ ⦃a : α⦄, c.Started → rule c = .ok a c' → c'.rest.length < c.rest.length

/-- Less left is further on. -/
theorem pos_lt_of_length_rest_lt {c c' : Cursor} (hc : c.Started) (hahead : c.Ahead c')
    (h : c'.rest.length < c.rest.length) : c.pos < c'.pos := by
  rw [hc.length_rest, hahead.started.length_rest, hahead.source_eq] at h
  have hbegun := hc.begun
  omega

/-- A mark that is eaten leaves less. -/
theorem eat_true_lt {x : Char} {c c' : Cursor} (hc : c.Started) (h : eat x c = .ok true c') :
    c'.rest.length < c.rest.length := by
  have hany : eatAny [x] c = .ok (some x) c' := bind_of_ok h _
  exact eatAny_some_lt hc hany

/-- Where a character of a class stands a run of the class is consumed. -/
theorem scan_lt {p : Char → Bool} {c : Cursor} {x : Char} (hhead : c.rest.head? = some x)
    (hx : p x = true) : (c.scan p).2.rest.length < c.rest.length := by
  obtain ⟨rest, hcons⟩ := List.head?_eq_some_iff.mp hhead
  rw [c.rest_scan, hcons, List.dropWhile_cons_of_pos hx]
  exact Nat.lt_succ_of_le (List.dropWhile_sublist p).length_le

/-- A number that is read leaves less. -/
theorem number_lt {c c' : Cursor} {tree : Expr} {x : Char} (hhead : c.rest.head? = some x)
    (hx : Cursor.isNumeric x = true) (hok : number c = .ok tree c') :
    c'.rest.length < c.rest.length := by
  rw [number_eq] at hok
  have hlt := scan_lt hhead hx
  cases hvalue : Double.ofNumeral? (c.scan Cursor.isNumeric).1 with
  | none =>
      rw [hvalue] at hok
      cases hok
  | some value =>
      rw [hvalue] at hok
      cases hok
      exact hlt

section Rules

variable (scope : Scope) {expression : Rule Expr} (hexp : Moves expression)

include hexp

/-- What begins with a name and is read leaves less. -/
theorem identifier_lt {c c' : Cursor} {tree : Expr} {x : Char} (hc : c.Started)
    (hhead : c.rest.head? = some x) (hx : Cursor.isAlphabetic x = true)
    (hok : identifier scope expression c = .ok tree c') : c'.rest.length < c.rest.length := by
  have hsteps := moves_stepwise
  rw [identifier_eq] at hok
  have hmoves : c'.rest.length ≤ (c.scan Cursor.isAlphabetic).2.rest.length := by
    refine (Moves.ok ?_ (hc.scan _) hok).length_rest_le (hc.scan _)
    refine (eat_moves '(').bind fun called => ?_
    cases called with
    | false => exact hsteps.reference scope _ _
    | true =>
        refine (eat_moves ')').bind fun closed => ?_
        cases closed with
        | true => exact hsteps.method _ _
        | false => exact hsteps.call hexp _ _
  exact Nat.lt_of_le_of_lt hmoves (scan_lt hhead hx)

/-- A base leaves less. -/
theorem base_shortens : Shortens (base scope expression) := by
  intro c c' tree hc hok
  obtain ⟨opened, c₁, heat, hok⟩ := bind_eq_ok.mp hok
  have hahead := (eat_moves '(').ok hc heat
  cases opened with
  | true =>
      have hsteps := moves_stepwise
      have hmoves := Moves.ok (hsteps.consumedAt.bind fun place => hexp.bind fun inner =>
        (eat_moves ')').bind fun closed => by
          cases closed with
          | true => exact hsteps.pure inner
          | false => exact hsteps.fail _) hahead.started hok
      exact Nat.lt_of_le_of_lt (hmoves.length_rest_le hahead.started) (eat_true_lt hc heat)
  | false =>
      have hle := hahead.length_rest_le hc
      obtain ⟨found, c₂, hcurrent, hok⟩ := bind_eq_ok.mp hok
      cases hcurrent
      cases hhead : c₁.current with
      | none =>
          rw [hhead] at hok
          cases hok
      | some x =>
          rw [hhead] at hok
          simp only at hok
          split at hok
          · rename_i hx
            exact Nat.lt_of_lt_of_le (number_lt hhead hx hok) hle
          · split at hok
            · rename_i hx
              exact Nat.lt_of_lt_of_le
                (identifier_lt scope hexp hahead.started hhead hx hok) hle
            · cases hok

end Rules

/-- A level of operations leaves less if its operands do. -/
theorem operations_shortens {operand : Rule Expr} (hop : Moves operand) (h : Shortens operand)
    (signs : List Char) : Shortens (operations operand signs) := by
  intro c c' tree hc hok
  obtain ⟨first, c₁, hfirst, hok⟩ := bind_eq_ok.mp hok
  have hstarted := (hop.ok hc hfirst).started
  have hmoves := (get_moves.bind fun _ => chain_moves hop signs _ first).ok hstarted hok
  exact Nat.lt_of_le_of_lt (hmoves.length_rest_le hstarted) (h hc hfirst)

/-- A factor leaves less. -/
theorem factor_shortens (scope : Scope) (limit : Int) (n : Nat) :
    Shortens (factor scope limit n) := by
  intro c c' tree hc hok
  cases n with
  | zero => cases hok
  | succ n =>
      have hsteps := moves_stepwise
      have hfactor := factor_moves scope limit n
      have hexp := expression_moves scope limit n
      obtain ⟨found, c₁, hfound, hok⟩ := bind_eq_ok.mp hok
      have hahead := (eatAny_moves _).ok hc hfound
      cases found with
      | some sign =>
          have hmoves := (hsteps.consumedAt.bind fun place => hfactor.bind fun operand =>
            pure_moves _).ok hahead.started hok
          exact Nat.lt_of_le_of_lt (hmoves.length_rest_le hahead.started)
            (eatAny_some_lt hc hfound)
      | none =>
          obtain ⟨bottom, c₂, hbottom, hok⟩ := bind_eq_ok.mp hok
          have hstarted := ((hsteps.base scope hexp).ok hahead.started hbottom).started
          have hmoves := Moves.ok ((eat_moves '^').bind fun raised => by
            cases raised with
            | true => exact hsteps.consumedAt.bind fun place => hfactor.bind fun _ => pure_moves _
            | false => exact pure_moves _) hstarted hok
          calc c'.rest.length
              ≤ c₂.rest.length := hmoves.length_rest_le hstarted
            _ < c₁.rest.length := base_shortens scope hexp hahead.started hbottom
            _ ≤ c.rest.length := hahead.length_rest_le hc

/-- What is never left standing behind a part of a level: the space, and the
operators of the level and of the tighter ones. -/
def Level.stops : Level → List Char
  | .expression => [' ', '+', '-', '*', '/', '^']
  | .term => [' ', '*', '/', '^']
  | .factor => [' ', '^']
  | .base => []

section Levels

variable (scope : Scope) (limit depth : Int) (level : Level)

/-- The rule of every level goes forward. -/
theorem rule_moves : Moves (level.rule scope limit depth) := by
  have hfactor := factor_moves scope limit (allowance limit depth)
  cases level with
  | expression => exact moves_stepwise.expression hfactor
  | term => exact operations_moves hfactor _
  | factor => exact hfactor
  | base => exact moves_stepwise.base scope (moves_stepwise.expression hfactor)

/-- The rule of every level leaves less. -/
theorem rule_shortens : Shortens (level.rule scope limit depth) := by
  have hmoves := factor_moves scope limit (allowance limit depth)
  have hfactor := factor_shortens scope limit (allowance limit depth)
  have hterm := operations_shortens hmoves hfactor ['*', '/']
  cases level with
  | expression => exact operations_shortens (operations_moves hmoves _) hterm _
  | term => exact hterm
  | factor => exact hfactor
  | base => exact base_shortens scope (moves_stepwise.expression hmoves)

/-- Behind the rule of a level stands nothing with which it could go on. -/
theorem rule_halts {c c' : Cursor} {tree : Expr} (hc : c.Started)
    (hok : level.rule scope limit depth c = .ok tree c') :
    ∀ x ∈ level.stops, c'.rest.head? ≠ some x := by
  cases level with
  | expression => exact expression_halts scope limit _ hc hok
  | term => exact term_halts scope limit _ hc hok
  | factor => exact factor_halts scope limit _ hc hok
  | base => exact fun _ hx => absurd hx List.not_mem_nil

end Levels

end Grammar

namespace Parser

open Grammar

/-- With enough fuel, however much it is, a run comes to an end with this
result. -/
def Ends {β : Type} (run : Nat → Option β) (result : β) : Prop :=
  ∃ enough, ∀ fuel, enough ≤ fuel → run fuel = some result

/-- What a method leaves of a parser: the scope, the limit, the count and the
source as they were, and a cursor that stands in the source, not before where
it was; behind a tree, farther on, at nothing that the tree could go on with. -/
structure Contract (level : Level) (p : Parser) (outcome : Except ParseError Expr) (p' : Parser) :
    Prop where
  scope_eq : p'.scope = p.scope
  limit_eq : p'.limit = p.limit
  depth_eq : p'.depth = p.depth
  source_eq : p'.cursor.source = p.cursor.source
  pos_le : p.cursor.pos ≤ p'.cursor.pos
  pos_le_length : p'.cursor.pos ≤ p'.cursor.source.length
  placed : p'.cursor.Placed
  current_eq : p'.cursor.current = p'.cursor.source[p'.cursor.pos.toNat]?
  progress : ∀ tree, outcome = .ok tree → p.cursor.pos < p'.cursor.pos
  maximal : ∀ tree, outcome = .ok tree → ∀ x ∈ level.stops, p'.cursor.current ≠ some x

/-- What a rule on the cursor does to a parser. -/
theorem onCursor_eq {α : Type} (rule : Rule α) (p : Parser) : ∃ outcome,
    onCursor rule p = some (outcome, { p with cursor := leaves rule p.cursor }) ∧
    ∀ a, outcome = .ok a → rule p.cursor = .ok a (leaves rule p.cursor) := by
  unfold onCursor leaves
  cases rule p.cursor with
  | ok a c => exact ⟨.ok a, rfl, fun _ ha => by cases ha; rfl⟩
  | error e c => exact ⟨.error e, rfl, nofun⟩

/-- What the rule of a level leaves keeps the contract. -/
theorem contract_of_rule (level : Level) (p : Parser) (hp : p.cursor.Started)
    (hinside : p.cursor.pos ≤ p.cursor.source.length) {outcome : Except ParseError Expr}
    (houtcome : ∀ tree, outcome = .ok tree → level.rule p.scope p.limit p.depth p.cursor =
      .ok tree (leaves (level.rule p.scope p.limit p.depth) p.cursor)) :
    Contract level p outcome
      { p with cursor := leaves (level.rule p.scope p.limit p.depth) p.cursor } := by
  have hahead := rule_moves p.scope p.limit p.depth level p.cursor hp
  exact {
    scope_eq := rfl
    limit_eq := rfl
    depth_eq := rfl
    source_eq := hahead.source_eq
    pos_le := hahead.pos_le
    pos_le_length := hahead.within hinside
    placed := hahead.started.placed
    current_eq := hahead.started.getElem?_pos.symm
    progress := fun tree hok =>
      pos_lt_of_length_rest_lt hp hahead (rule_shortens _ _ _ level hp (houtcome tree hok))
    maximal := fun tree hok => rule_halts _ _ _ level hp (houtcome tree hok) }

/-! ### After any uses -/

/-- Between uses a parser of a source stands in no factor, and its cursor is
placed. -/
structure Idle (limit : Int) (text : List Char) (p : Parser) : Prop where
  placed : p.cursor.Placed
  source_eq : p.cursor.source = text
  limit_eq : p.limit = limit
  depth_eq : p.depth = 0

/-- Fuel for any use of a parser that is idle. -/
def enough (limit : Int) (text : List Char) : Nat :=
  text.length + 4 * allowance limit 0 + 4

variable {limit : Int} {text : List Char} {p : Parser}

/-- A new parser is idle. -/
theorem fresh_idle (scope : Scope) (limit : Int) (source : String) :
    Idle limit source.toList (fresh scope limit source) :=
  ⟨Cursor.placed_ofSource source, rfl, rfl, rfl⟩

/-- A rule leaves a parser idle. -/
theorem Idle.of_rule {α : Type} {rule : Rule α} (hrule : Narrows rule) (h : Idle limit text p) :
    Idle limit text { p with cursor := leaves rule p.cursor } := by
  have hwithin := hrule.leaves ⟨h.placed, h.source_eq, Nat.le_refl _⟩
  exact ⟨hwithin.placed, hwithin.source_eq, h.limit_eq, h.depth_eq⟩

/-- To rewind keeps a parser idle. -/
theorem Idle.rewind (h : Idle limit text p) : Idle limit text p.rewind :=
  ⟨Cursor.placed_advance (Cursor.placed_reset _), h.source_eq, h.limit_eq, rfl⟩

/-- An idle parser reads as the rule of the level does. -/
theorem Idle.read_eq (h : Idle limit text p) (level : Level) {fuel : Nat}
    (hfuel : enough limit text ≤ fuel) :
    read fuel level p = onCursor (level.rule p.scope p.limit p.depth) p := by
  refine read_eq_rule p h.placed level (Nat.le_trans ?_ hfuel)
  have hle := h.placed.length_rest_le
  rw [h.source_eq] at hle
  rw [h.limit_eq, h.depth_eq, enough]
  omega

/-- An idle parser reads its whole source as a fresh one. -/
theorem Idle.parse_eq (h : Idle limit text p) {fuel : Nat} (hfuel : enough limit text ≤ fuel) :
    parse fuel p = onCursor (whole p.scope p.limit) p.rewind := by
  show (read fuel .expression >>= _) p.rewind = _
  refine bind_eq_onCursor (h.rewind.read_eq .expression hfuel) fun tree c _ => ?_
  show (if c.atEnd then _ else _ : Method Expr) _ = onCursor (if c.atEnd then _ else _) _
  cases c.atEnd <;> rfl

/-- The scope that a use leaves. -/
def Use.scope : Use → Scope → Scope
  | .parse, s | .read _, s => s
  | .bind name producer, s => s.bind name producer

/-- **A use leaves an idle parser idle**, and only a binding changes its
scope. -/
theorem Idle.apply (h : Idle limit text p) (use : Use) : ∃ p', Idle limit text p' ∧
    p'.scope = use.scope p.scope ∧
    ∀ fuel, enough limit text ≤ fuel → use.apply fuel p = some p' := by
  cases use with
  | parse =>
      obtain ⟨outcome, hrun, -⟩ := onCursor_eq (whole p.scope p.limit) p.rewind
      refine ⟨_, h.rewind.of_rule (whole_narrows p.scope p.limit), rfl, fun fuel hfuel => ?_⟩
      rw [Use.apply, h.parse_eq hfuel, hrun]
      rfl
  | read level =>
      obtain ⟨outcome, hrun, -⟩ := onCursor_eq (level.rule p.scope p.limit p.depth) p
      have hrule := rule_narrows p.scope p.limit p.depth level
      refine ⟨_, h.of_rule hrule, rfl, fun fuel hfuel => ?_⟩
      rw [Use.apply, h.read_eq level hfuel, hrun]
      rfl
  | bind name producer =>
      exact ⟨{ p with scope := p.scope.bind name producer },
        ⟨h.placed, h.source_eq, h.limit_eq, h.depth_eq⟩, rfl, fun _ _ => rfl⟩

/-- A parser is idle after any uses. -/
theorem Idle.after (uses : List Use) : ∀ {p : Parser}, Idle limit text p → ∃ p',
    Idle limit text p' ∧ p'.scope = uses.foldl (fun s use => use.scope s) p.scope ∧
    ∀ fuel, enough limit text ≤ fuel → after fuel p uses = some p' := by
  induction uses with
  | nil => exact fun h => ⟨_, h, rfl, fun _ _ => rfl⟩
  | cons use uses ih =>
      intro p h
      obtain ⟨p₁, h₁, hscope₁, happly⟩ := h.apply use
      obtain ⟨p', h', hscope, hafter⟩ := ih h₁
      refine ⟨p', h', ?_, fun fuel hfuel => ?_⟩
      · rw [hscope, hscope₁, List.foldl_cons]
      · rw [Parser.after, List.foldlM_cons, happly fuel hfuel]
        exact hafter fuel hfuel

/-- A fresh parser reads its source from the beginning. -/
theorem onCursor_whole (scope : Scope) (limit : Int) (source : String) : ∃ p',
    onCursor (whole scope limit) (fresh scope limit source).rewind =
      some (Reckon.parse scope limit source, p') := by
  have hcursor : (fresh scope limit source).rewind.cursor = (Cursor.ofSource source).advance := rfl
  unfold onCursor Reckon.parse
  rw [hcursor]
  cases whole scope limit (Cursor.ofSource source).advance <;> exact ⟨_, rfl⟩

/-- Reading a whole source begins with rewinding, so of an idle parser only the
scope matters. -/
theorem Idle.parse_fresh {source : String} (h : Idle limit source.toList p) : ∃ p',
    Ends (fun fuel => parse fuel p) (Reckon.parse p.scope limit source, p') ∧
    Ends (fun fuel => parse fuel (fresh p.scope limit source))
      (Reckon.parse p.scope limit source, p') := by
  have hfresh := fresh_idle p.scope limit source
  have hsame : p.rewind = (fresh p.scope limit source).rewind := by
    obtain ⟨⟨text, pos, rest⟩, scope, _, depth⟩ := p
    obtain ⟨-, rfl, rfl, -⟩ := h
    rfl
  obtain ⟨p', hrun⟩ := onCursor_whole p.scope limit source
  refine ⟨p', ⟨enough limit source.toList, fun fuel hfuel => ?_⟩,
    ⟨enough limit source.toList, fun fuel hfuel => ?_⟩⟩
  · show parse fuel p = _
    rw [h.parse_eq hfuel, hsame, h.limit_eq, hrun]
  · show parse fuel (fresh p.scope limit source) = _
    rw [hfresh.parse_eq hfuel]
    exact hrun

/-- **The methods of a parser keep their contract.**  In a parser of any scope,
limit and count, whose cursor stands anywhere in its source, the method of each
level comes to an end, and on success and on failure it leaves all but the
cursor as it was.  So after any uses, whatever they came to, a whole source is
read as by a fresh parser of the scope. -/
theorem methods_keep_contract :
    (∀ (p : Parser) (level : Level), p.cursor.Started →
      p.cursor.pos ≤ p.cursor.source.length → ∃ outcome p',
      Ends (fun fuel => read fuel level p) (outcome, p') ∧ Contract level p outcome p') ∧
    ∀ (scope : Scope) (limit : Int) (source : String) (uses : List Use), ∃ p p',
      Ends (fun fuel => after fuel (fresh scope limit source) uses) p ∧
      p.scope = uses.foldl (fun s use => use.scope s) scope ∧
      Ends (fun fuel => parse fuel p) (Reckon.parse p.scope limit source, p') ∧
      Ends (fun fuel => parse fuel (fresh p.scope limit source))
        (Reckon.parse p.scope limit source, p') := by
  constructor
  · intro p level hp hinside
    obtain ⟨outcome, hrun, houtcome⟩ := onCursor_eq (level.rule p.scope p.limit p.depth) p
    have hread : Ends (fun fuel => read fuel level p) _ :=
      ⟨_, fun fuel hfuel => (read_eq_rule p hp.placed level hfuel).trans hrun⟩
    exact ⟨outcome, _, hread, contract_of_rule level p hp hinside houtcome⟩
  · intro scope limit source uses
    obtain ⟨p, hidle, hscope, hafter⟩ := (fresh_idle scope limit source).after uses
    obtain ⟨p', hparse, hfresh⟩ := hidle.parse_fresh
    exact ⟨p, p', ⟨_, hafter⟩, hscope, hparse, hfresh⟩

/-- Behind the sign of this source, with one of three factors begun, a term
nests too deeply. -/
theorem methods_keep_contract_term : ∃ p : Parser, p.cursor.Started ∧
    p.cursor.pos ≤ p.cursor.source.length ∧ p.depth = 1 ∧ ∃ outcome p',
    Ends (fun fuel => read fuel .term p) (outcome, p') ∧ Contract .term p outcome p' := by
  have hp : (Cursor.ofSource "-2 * -pi ^").advance.advance.Started :=
    (Cursor.started_advance_ofSource _).advance
  exact ⟨⟨_, .seeded, 3, 1⟩, hp, by decide, rfl,
    methods_keep_contract.1 ⟨_, .seeded, 3, 1⟩ .term hp (by decide)⟩

end Parser

end Reckon
