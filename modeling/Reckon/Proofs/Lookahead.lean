import Reckon.Proofs.Progress
/-!
# Rules look no further than where they stop

What a rule does depends only on the source up to the position at which it
leaves the cursor, that position included.  In another source that agrees so far
it does the same (`whole_sighted`).
-/

namespace Reckon

/-- Texts that agree on their first characters have the same run in front, if it
ends there. -/
theorem takeWhile_eq_of_take_eq {p : Char → Bool} {cs ds : List Char} {n : Nat}
    (h : cs.take (n + 1) = ds.take (n + 1)) (hn : n < cs.length)
    (hrun : (cs.takeWhile p).length ≤ n) : cs.takeWhile p = ds.takeWhile p := by
  induction cs generalizing ds n with
  | nil => exact absurd hn (Nat.not_lt_zero n)
  | cons c cs ih =>
      cases ds with
      | nil => simp at h
      | cons d ds =>
          obtain ⟨rfl, hmore⟩ := List.cons.inj h
          by_cases hc : p c = true
          · simp only [List.takeWhile_cons_of_pos hc, List.length_cons] at hrun hn ⊢
            obtain ⟨n, rfl⟩ := Nat.exists_eq_add_one.mpr (Nat.lt_of_lt_of_le (Nat.succ_pos _) hrun)
            rw [ih hmore (Nat.lt_of_succ_lt_succ hn) (Nat.le_of_succ_le_succ hrun)]
          · simp [hc]

/-- Two cursors at one position, in sources that agree up to a place and that
place included. -/
structure Cursor.Agree (q : Nat) (c d : Cursor) : Prop where
  started : c.Started
  started' : d.Started
  pos_eq : c.pos = d.pos
  take_eq : c.source.take (q + 1) = d.source.take (q + 1)
  inside : q < c.source.length

namespace Cursor.Agree

variable {q : Nat} {c d : Cursor}

/-- The place also lies within the second source. -/
theorem inside' (h : Agree q c d) : q < d.source.length := by
  have hlength := congrArg List.length h.take_eq
  have hinside := h.inside
  rw [List.length_take, List.length_take] at hlength
  omega

/-- What is left agrees as well. -/
theorem take_rest_eq (h : Agree q c d) (hpos : c.pos ≤ q) :
    c.rest.take (q - c.pos.toNat + 1) = d.rest.take (q - c.pos.toNat + 1) := by
  have hbegun := h.started.begun
  have hlength : q - c.pos.toNat + 1 = q + 1 - c.pos.toNat := by omega
  rw [h.started.rest_eq, h.started'.rest_eq, ← h.pos_eq, hlength, ← List.drop_take,
    ← List.drop_take, h.take_eq]

/-- Up to the place both cursors look at the same character. -/
theorem head?_eq (h : Agree q c d) (hpos : c.pos ≤ q) : c.rest.head? = d.rest.head? := by
  have hhead := congrArg List.head? (h.take_rest_eq hpos)
  rwa [List.head?_take, List.head?_take, if_neg (Nat.succ_ne_zero _),
    if_neg (Nat.succ_ne_zero _)] at hhead

/-- A run that ends before the place is the same in both. -/
theorem skip (h : Agree q c d) {p : Char → Bool}
    (hpos : (c.skip (c.rest.takeWhile p)).pos ≤ q) :
    c.rest.takeWhile p = d.rest.takeWhile p ∧
      Agree q (c.skip (c.rest.takeWhile p)) (d.skip (d.rest.takeWhile p)) := by
  have hbegun := h.started.begun
  have hlength := h.started.length_rest
  have hinside := h.inside
  have hpos' : c.pos + (c.rest.takeWhile p).length ≤ q := hpos
  have hrun := takeWhile_eq_of_take_eq (h.take_rest_eq (by omega)) (by omega)
    (p := p) (by omega)
  refine ⟨hrun, h.started.scan p, h.started'.scan p, ?_, h.take_eq, h.inside⟩
  simp only [Cursor.skip, hrun, h.pos_eq]

/-- A step keeps the sources in agreement. -/
theorem advance (h : Agree q c d) : Agree q c.advance d.advance := by
  refine ⟨h.started.advance, h.started'.advance, ?_, h.take_eq, h.inside⟩
  simp only [Cursor.advance, h.pos_eq]

end Cursor.Agree

namespace Grammar

open Cursor (Agree)

/-- The same answer, with the cursors still agreeing, or the same error. -/
abbrev Same {α : Type} (q : Nat) :
    EStateM.Result ParseError Cursor α → EStateM.Result ParseError Cursor α → Prop :=
  Matched Eq fun a b c d => a = b ∧ Agree q c d

/-- As long as the rule stops at a place or before it, it does the same in every
source that agrees so far. -/
structure Sighted (q : Nat) {α : Type} (rule : Rule α) : Prop where
  moves : Moves rule
  same : ∀ ⦃c d : Cursor⦄, Agree q c d → (leaves rule c).pos ≤ q → Same q (rule c) (rule d)

variable {q : Nat}

/-- A sequence leaves the cursor where its second part does. -/
theorem leaves_bind {α β : Type} {x : Rule α} {f : α → Rule β} {c c₁ : Cursor} {a : α}
    (hx : x c = .ok a c₁) : leaves (x >>= f) c = leaves (f a) c₁ := by
  unfold leaves
  rw [bind_of_ok hx]

/-- A sequence does the same if what follows its first part does. -/
theorem Sighted.bind_same {α β : Type} {x : Rule α} {f g : α → Rule β} (hx : Sighted q x)
    (hf : ∀ a, Moves (f a)) {c d : Cursor} (h : Agree q c d)
    (hpos : (leaves (x >>= f) c).pos ≤ q)
    (hfg : ∀ ⦃a : α⦄ ⦃c₁ d₁ : Cursor⦄, x c = .ok a c₁ → x d = .ok a d₁ → Agree q c₁ d₁ →
      (leaves (f a) c₁).pos ≤ q → Same q (f a c₁) (g a d₁)) :
    Same q ((x >>= f) c) ((x >>= g) d) := by
  have hle : (leaves x c).pos ≤ q := by
    cases hrun : x c with
    | ok a c₁ =>
        have hstarted := (hx.moves.ok h.started hrun).started
        have hahead := hf a c₁ hstarted
        rw [leaves_bind hrun] at hpos
        simpa only [leaves, hrun] using Int.le_trans hahead.pos_le hpos
    | error e c₁ =>
        have hbad : (x >>= f) c = .error e c₁ := bind_eq_error.mpr (Or.inl hrun)
        simpa only [leaves, hrun, hbad] using hpos
  refine (hx.same h hle).bind fun a b c₁ d₁ hok hok' hsame => ?_
  obtain ⟨rfl, hagree⟩ := hsame
  exact hfg hok hok' hagree (leaves_bind hok ▸ hpos)

/-- One rule behind another looks no further if neither does. -/
theorem Sighted.bind {α β : Type} {x : Rule α} {f : α → Rule β} (hx : Sighted q x)
    (hf : ∀ a, Sighted q (f a)) : Sighted q (x >>= f) :=
  ⟨hx.moves.bind fun a => (hf a).moves, fun _ _ h hpos =>
    hx.bind_same (fun a => (hf a).moves) h hpos fun a _ _ _ _ hagree hle => (hf a).same hagree hle⟩

/-- An answer at once does not look at the source. -/
theorem pure_sighted {α : Type} (a : α) : Sighted q (pure a : Rule α) :=
  ⟨pure_moves a, fun _ _ h _ => ⟨rfl, h⟩⟩

/-- A failure does not look at the source. -/
theorem failAt_sighted {α : Type} (position : Int) (fault : ParseFault) :
    Sighted q (failAt position fault : Rule α) :=
  ⟨failAt_moves position fault, fun _ _ _ _ => rfl⟩

/-- The position does not depend on the source. -/
theorem here_sighted : Sighted q here :=
  ⟨here_moves, fun _ _ h _ => ⟨h.pos_eq, h⟩⟩

/-- The place of what was eaten does not depend on the source. -/
theorem consumedAt_sighted : Sighted q consumedAt :=
  here_sighted.bind fun _ => pure_sighted _

/-- The current character is what the cursor looks at. -/
theorem current_sighted : Sighted q current :=
  ⟨moves_stepwise.current, fun _ _ h hpos => ⟨h.head?_eq hpos, h⟩⟩

/-- A scan looks no further than the character that ends the run. -/
theorem scan_sighted (p : Char → Bool) : Sighted q (scan p) :=
  ⟨scan_moves p, fun _ _ h hpos => h.skip hpos⟩

/-- To eat looks no further than the character behind the spaces. -/
theorem eat_sighted (x : Char) : Sighted q (eat x) := by
  refine ⟨eat_moves x, fun c d h hpos => ?_⟩
  have hle : c.skipSpaces.pos ≤ q := by
    rw [leaves, eat_eq] at hpos
    by_cases hhead : c.skipSpaces.rest.head? = some x
    · rw [if_pos hhead] at hpos
      exact Int.le_trans (Int.le_add_one (Int.le_refl _)) hpos
    · rwa [if_neg hhead] at hpos
  obtain ⟨-, hagree⟩ := h.skip hle
  have hhead : c.skipSpaces.rest.head? = d.skipSpaces.rest.head? := hagree.head?_eq hle
  rw [eat_eq, eat_eq, hhead]
  split
  · exact ⟨rfl, hagree.advance⟩
  · exact ⟨rfl, hagree⟩

/-- To try several marks looks no further than the character behind the spaces.
-/
theorem eatAny_sighted (signs : List Char) : Sighted q (eatAny signs) := by
  induction signs with
  | nil => exact pure_sighted _
  | cons y signs ih =>
      refine (eat_sighted y).bind fun found => ?_
      cases found with
      | true => exact pure_sighted _
      | false => exact ih

section Operations

variable {operand : Rule Expr} (hop : Sighted q operand) (signs : List Char)

include hop

/-- Two chains may be allowed different numbers of turns, but each as many as
characters are left to it.  The induction is on what is left to the first. -/
theorem chain_same {left left' : List Char} {tree : Expr} {c d : Cursor} (h : Agree q c d)
    (hleft : c.rest.length ≤ left.length) (hleft' : d.rest.length ≤ left'.length)
    (hpos : (leaves (chain operand signs left tree) c).pos ≤ q) :
    Same q (chain operand signs left tree c) (chain operand signs left' tree d) := by
  induction hn : c.rest.length using Nat.strongRecOn generalizing left left' tree c d with
  | _ n ih =>
      subst hn
      unfold leaves at hpos
      rw [chain_eq operand signs tree hleft] at hpos ⊢
      rw [chain_eq operand signs tree hleft']
      refine (eatAny_sighted signs).bind_same (fun found => ?_) h hpos
        fun found c₁ d₁ hfound hfound' hagree hpos => ?_
      · cases found with
        | none => exact pure_moves _
        | some sign =>
            exact moves_stepwise.consumedAt.bind fun place => hop.moves.bind fun right =>
              chain_moves hop.moves signs _ _
      · cases found with
        | none => exact ⟨rfl, hagree⟩
        | some sign =>
            refine consumedAt_sighted.bind_same (fun place => hop.moves.bind fun right =>
              chain_moves hop.moves signs _ _) hagree hpos ?_
            intro place c₂ d₂ hplace hplace' hagree hpos
            refine hop.bind_same (fun right => chain_moves hop.moves signs _ _) hagree hpos ?_
            intro right c₃ d₃ hright hright' hagree hpos
            have hlt := turn_lt hop.moves h.started hfound hplace hright
            have hlt' := turn_lt hop.moves h.started' hfound' hplace' hright'
            refine ih c₃.rest.length hlt hagree ?_ ?_ hpos rfl
            · rw [List.length_tail]
              omega
            · rw [List.length_tail]
              omega

/-- A level of operations looks no further than its operands and signs do. -/
theorem operations_sighted : Sighted q (operations operand signs) := by
  refine ⟨operations_moves hop.moves signs, fun c d h hpos => ?_⟩
  refine hop.bind_same (fun first => ?_) h hpos fun first c₁ d₁ _ _ hagree hpos => ?_
  · exact get_moves.bind fun _ => chain_moves hop.moves signs _ first
  · exact chain_same hop signs hagree (Nat.le_refl _) (Nat.le_refl _) hpos

end Operations

/-- **To look no further than where one stops passes from step to step.** -/
theorem sighted_stepwise : Stepwise (Sighted q) where
  pure := pure_sighted
  bind := Sighted.bind
  failAt := failAt_sighted
  here := here_sighted
  current := current_sighted
  eat := eat_sighted
  scan := scan_sighted
  operations signs hop := operations_sighted hop signs

/-- **A whole source is read no further than to where its rule stops.** -/
theorem whole_sighted (scope : Scope) (limit : Int) : Sighted q (whole scope limit) := by
  have hexp : Sighted q (expression (factor scope limit (allowance limit 0))) :=
    sighted_stepwise.expression (sighted_stepwise.factor scope limit _)
  have hrest : ∀ tree : Expr, Moves (do
      let c ← get
      if c.atEnd then return tree else fail (.trailing c.current) : Rule Expr) := by
    intro tree
    refine get_moves.bind fun c => ?_
    split
    · exact pure_moves tree
    · exact moves_stepwise.fail _
  refine ⟨hexp.moves.bind hrest, fun c d h hpos => ?_⟩
  refine hexp.bind_same hrest h hpos fun tree c₁ d₁ _ _ hagree hpos => ?_
  have hle : c₁.pos ≤ q := by
    have hahead := hrest tree c₁ hagree.started
    exact Int.le_trans hahead.pos_le hpos
  rw [bind_of_ok (get_eq c₁), bind_of_ok (get_eq d₁)]
  -- Both sources go on behind the place, so neither cursor is at its end.
  have hend : ¬ c₁.atEnd := by
    have hinside := hagree.inside
    simp only [Cursor.atEnd, decide_eq_true_eq]
    omega
  have hend' : ¬ d₁.atEnd := by
    have hinside := hagree.inside'
    have hpos := hagree.pos_eq
    simp only [Cursor.atEnd, decide_eq_true_eq]
    omega
  have hhead : c₁.current = d₁.current := hagree.head?_eq hle
  rw [if_neg hend, if_neg hend', hhead]
  exact (sighted_stepwise.fail _).same hagree hle

end Grammar

end Reckon
