import Mathlib.Control.Monad.Basic
import Reckon.Proofs.Spacing
/-!
# Reading with spaces put in

Spaces between tokens do not change what is read but for positions, and a source
that is not read fails for the same reason at the same character
(`parse_spaced`).

Spaces are skipped by `eat` alone, so this rests on an `eat` before everything
that looks at a character.  The rules read a source and the source with spaces
put in abreast; each has a lemma that says from which cursors it does so and how
the cursors stand behind it.
-/

namespace Reckon

namespace Grammar

section Rules

variable {s t : List Char}

/-- Two rules go abreast, the one in `s` and the other in `t`. -/
abbrev Alike {α : Type} (s t : List Char) (pre : Cursor → Cursor → Prop) (x y : Rule α)
    (post : α → α → Cursor → Cursor → Prop) : Prop :=
  Abreast (ParseError.Moved s t) pre x y post

/-- Both looked for something and found the same.  What was found is the last
character; if nothing was, the cursors face each other. -/
structure Found {α : Type} (s t : List Char) (nothing found found' : α) (c d : Cursor) : Prop where
  same : found = found'
  near : Near s t c d
  last : found ≠ nothing → SameCharacter s t (c.pos - 1) (d.pos - 1)
  facing : found = nothing → Facing s t c d

/-- Both read a tree, and the cursors are near each other. -/
structure Built (s t : List Char) (tree tree' : Expr) (c d : Cursor) : Prop where
  moved : tree.Moved (SameCharacter s t) tree'
  near : Near s t c d

/-- Both read a tree, and the cursors face each other. -/
structure Finished (s t : List Char) (tree tree' : Expr) (c d : Cursor) : Prop where
  moved : tree.Moved (SameCharacter s t) tree'
  facing : Facing s t c d

/-- What begins at the same character is the same variable. -/
theorem reference_alike (scope : Scope) (name : String) {p q : Int} (hpq : SameCharacter s t p q) :
    Alike s t (Near s t) (reference scope name p) (reference scope name q) (Built s t) := by
  intro c d h
  unfold reference
  cases scope.find? name with
  | some producer => exact ⟨⟨hpq, rfl, rfl⟩, h⟩
  | none => exact ⟨rfl, fun _ => Or.inl hpq⟩

/-- A method is the same at places of the same character. -/
theorem method_alike (name : String) {p q : Int} (hpq : SameCharacter s t p q) :
    Alike s t (Near s t) (method name p) (method name q) (Built s t) := by
  intro c d h
  unfold method
  split
  · exact ⟨⟨hpq, rfl⟩, h⟩
  · exact ⟨rfl, fun _ => Or.inl hpq⟩

variable (hst : Spaced s t)

include hst

/-- A mark is found in both sources or in neither. -/
theorem eat_alike {x : Char} (hx : x ≠ ' ') :
    Alike s t (Near s t) (eat x) (eat x) (Found s t false) := by
  intro c d h
  have hfacing := h.skipSpaces
  rw [eat_eq, eat_eq, ← hfacing.head?_eq]
  by_cases hhead : c.skipSpaces.rest.head? = some x
  · rw [if_pos hhead, if_pos hhead]
    obtain ⟨cs, hc⟩ := List.head?_eq_some_iff.mp hhead
    obtain ⟨ds, hd⟩ := List.head?_eq_some_iff.mp (hfacing.head?_eq.symm.trans hhead)
    have hsame := hfacing.near.sameCharacter hst hx hc hd
    refine ⟨rfl, hfacing.near.advance hx hc hd, fun _ => ?_, nofun⟩
    simpa [Cursor.advance] using hsame
  · rw [if_neg hhead, if_neg hhead]
    exact ⟨rfl, hfacing.near, fun h => absurd rfl h, fun _ => hfacing⟩

/-- One more operator to look for. -/
theorem eatAny_cons_alike {y : Char} (hy : y ≠ ' ') {signs : List Char}
    (hsigns : Alike s t (Facing s t) (eatAny signs) (eatAny signs) (Found s t none)) :
    Alike s t (Near s t) (eatAny (y :: signs)) (eatAny (y :: signs)) (Found s t none) := by
  intro c d h
  refine (eat_alike hst hy c d h).bind fun found found' c₁ d₁ _ _ hfound => ?_
  obtain ⟨rfl, hnear, hlast, hfacing⟩ := hfound
  cases found with
  | true => exact ⟨rfl, hnear, fun _ => hlast (by simp), nofun⟩
  | false => exact hsigns c₁ d₁ (hfacing rfl)

/-- The same mark is found in both sources, or none. -/
theorem eatAny_alike {signs : List Char} (hne : signs ≠ []) (hsigns : ∀ x ∈ signs, x ≠ ' ') :
    Alike s t (Near s t) (eatAny signs) (eatAny signs) (Found s t none) := by
  have hmore : ∀ signs : List Char, (∀ x ∈ signs, x ≠ ' ') →
      Alike s t (Facing s t) (eatAny signs) (eatAny signs) (Found s t none) := by
    intro signs
    induction signs with
    | nil => exact fun _ c d h => ⟨rfl, h.near, fun h => absurd rfl h, fun _ => h⟩
    | cons y signs ih =>
        intro hsigns c d h
        obtain ⟨hy, hrest⟩ := List.forall_mem_cons.mp hsigns
        exact eatAny_cons_alike hst hy (ih hrest) c d h.near
  cases signs with
  | nil => exact absurd rfl hne
  | cons y signs =>
      obtain ⟨hy, hrest⟩ := List.forall_mem_cons.mp hsigns
      exact eatAny_cons_alike hst hy (hmore signs hrest)

/-- At one place both fail for one reason. -/
theorem fail_matched {post : Expr → Expr → Cursor → Cursor → Prop} (fault fault' : ParseFault)
    (hfault : fault.Moved (SameCharacter s t) fault') {c d : Cursor} (h : Facing s t c d) :
    Matched (ParseError.Moved s t) post ((fail fault : Rule Expr) c)
      ((fail fault' : Rule Expr) d) :=
  ⟨hfault, fun _ => h.samePlace hst⟩

/-- Where a numeral begins in both, both read it. -/
theorem number_alike {c d : Cursor} (h : Near s t c d) {x : Char} {cs ds : List Char}
    (hx : Cursor.isNumeric x = true) (hc : c.rest = x :: cs) (hd : d.rest = x :: ds) :
    Matched (ParseError.Moved s t) (Built s t) (number c) (number d) := by
  have hne : x ≠ ' ' := by
    rintro rfl
    exact absurd hx (by decide)
  have hsame := h.sameCharacter hst hne hc hd
  obtain ⟨hrun, hnear⟩ := h.scan (p := Cursor.isNumeric) (by decide)
    (fun _ _ hc hd => Or.inl ⟨hc, hd⟩) hc hd
  rw [number_eq, number_eq, ← hrun]
  cases Double.ofNumeral? (c.scan Cursor.isNumeric).1 with
  | some value => exact ⟨⟨hsame, rfl⟩, hnear⟩
  | none => exact ⟨rfl, fun _ => Or.inl hsame⟩

variable (scope : Scope)

variable {expression : Rule Expr}
  (hexp : Alike s t (Near s t) expression expression (Finished s t))

include hexp

/-- A call is the same at places of the same character, if its argument is. -/
theorem call_alike (name : String) {p q : Int} (hpq : SameCharacter s t p q) :
    Alike s t (Near s t) (call expression name p) (call expression name q) (Built s t) := by
  intro c d h
  refine (hexp c d h).bind fun argument argument' c₁ d₁ _ _ ⟨hmoved, hfacing⟩ => ?_
  refine (eat_alike hst (by decide) c₁ d₁ hfacing.near).bind
    fun closed closed' c₂ d₂ _ _ hfound => ?_
  obtain ⟨rfl, hnear, -, hfacing⟩ := hfound
  cases closed with
  | false => exact fail_matched hst (.unclosedCall name) (.unclosedCall name) rfl (hfacing rfl)
  | true =>
      simp only [if_true]
      split
      · exact ⟨⟨hpq, rfl, hmoved⟩, hnear⟩
      · exact ⟨rfl, fun _ => Or.inl hpq⟩

/-- Where a name begins in both, both read the same that it names. -/
theorem identifier_alike {c d : Cursor} (h : Near s t c d) {x : Char} {cs ds : List Char}
    (hx : Cursor.isAlphabetic x = true) (hc : c.rest = x :: cs) (hd : d.rest = x :: ds) :
    Matched (ParseError.Moved s t) (Built s t) (identifier scope expression c)
      (identifier scope expression d) := by
  have hne : x ≠ ' ' := by
    rintro rfl
    exact absurd hx (by decide)
  have hsame := h.sameCharacter hst hne hc hd
  obtain ⟨hrun, hnear⟩ := h.scan (p := Cursor.isAlphabetic) (by decide)
    (fun _ _ hc hd => Or.inr ⟨hc, hd⟩) hc hd
  rw [identifier_eq, identifier_eq, ← hrun]
  refine (eat_alike hst (by decide) _ _ hnear).bind fun called called' c₁ d₁ _ _ hfound => ?_
  obtain ⟨rfl, hnear, -, -⟩ := hfound
  cases called with
  | false => exact reference_alike scope _ hsame c₁ d₁ hnear
  | true =>
      refine (eat_alike hst (by decide) c₁ d₁ hnear).bind fun closed closed' c₂ d₂ _ _ hfound => ?_
      obtain ⟨rfl, hnear, -, -⟩ := hfound
      cases closed with
      | true => exact method_alike _ hsame c₂ d₂ hnear
      | false => exact call_alike hst hexp _ hsame c₂ d₂ hnear

/-- A base is read alike if the expressions in it are. -/
theorem base_alike :
    Alike s t (Near s t) (base scope expression) (base scope expression) (Built s t) := by
  intro c d h
  refine (eat_alike hst (by decide) c d h).bind fun opened opened' c₁ d₁ _ _ hfound => ?_
  obtain ⟨rfl, hnear, hlast, hfacing⟩ := hfound
  cases opened with
  | true =>
      have hopened := hlast (by simp)
      refine (hexp c₁ d₁ hnear).bind fun inner inner' c₂ d₂ _ _ ⟨hmoved, hfacing⟩ => ?_
      refine (eat_alike hst (by decide) c₂ d₂ hfacing.near).bind
        fun closed closed' c₃ d₃ _ _ hfound => ?_
      obtain ⟨rfl, hnear, -, hfacing⟩ := hfound
      cases closed with
      | true => exact ⟨hmoved, hnear⟩
      | false => exact fail_matched hst (.unclosedGroup _) (.unclosedGroup _) hopened (hfacing rfl)
  | false =>
      have hface := hfacing rfl
      simp only [Bool.false_eq_true, if_false]
      rw [bind_of_ok (current_eq c₁), bind_of_ok (current_eq d₁), ← hface.head?_eq]
      rcases hface.opposite with ⟨hc, hd⟩ | ⟨x, cs, ds, hx, hc, hd⟩
      · rw [hc]
        exact fail_matched hst (.unexpected none) (.unexpected none) rfl hface
      · rw [hc, List.head?_cons]
        simp only
        split
        · next hnumeric => exact number_alike hst hnear hnumeric hc hd
        · split
          · next halpha => exact identifier_alike hst scope hexp hnear halpha hc hd
          · exact fail_matched hst (.unexpected (some x)) (.unexpected (some x)) rfl hface

end Rules

section Operations

variable {s t : List Char} (hst : Spaced s t) {operand : Rule Expr} (hmoves : Moves operand)
  (hop : Alike s t (Near s t) operand operand (Finished s t)) {signs : List Char} (hne : signs ≠ [])
  (hsigns : ∀ x ∈ signs, x ≠ ' ')

include hst hmoves hop hne hsigns

/-- Two chains may be allowed different numbers of turns, but each as many as
characters are left to it.  The induction is on what is left to the first. -/
theorem chain_alike {left left' : List Char} {tree tree' : Expr} {c d : Cursor}
    (h : Built s t tree tree' c d) (hleft : c.rest.length ≤ left.length)
    (hleft' : d.rest.length ≤ left'.length) :
    Matched (ParseError.Moved s t) (Finished s t) (chain operand signs left tree c)
      (chain operand signs left' tree' d) := by
  induction hn : c.rest.length using Nat.strongRecOn generalizing left left' tree tree' c d with
  | _ n ih =>
      subst hn
      rw [chain_eq operand signs tree hleft, chain_eq operand signs tree' hleft']
      refine (eatAny_alike hst hne hsigns c d h.near).bind
        fun found found' c₁ d₁ hok hok' hfound => ?_
      obtain ⟨rfl, hnear, hlast, hfacing⟩ := hfound
      cases found with
      | none => exact ⟨h.moved, hfacing rfl⟩
      | some sign =>
          have hplace := hlast (by simp)
          refine (hop c₁ d₁ hnear).bind fun right right' c₂ d₂ hright hright' hbuilt => ?_
          have hlt := turn_lt hmoves h.near.started hok rfl hright
          have hlt' := turn_lt hmoves h.near.started' hok' rfl hright'
          refine ih c₂.rest.length (by omega) ⟨⟨hplace, rfl, h.moved, hbuilt.moved⟩,
            hbuilt.facing.near⟩ ?_ ?_ rfl
          · rw [List.length_tail]
            omega
          · rw [List.length_tail]
            omega

/-- A level of operations is read alike if its operands are. -/
theorem operations_alike :
    Alike s t (Near s t) (operations operand signs) (operations operand signs) (Finished s t) := by
  intro c d h
  refine (hop c d h).bind fun first first' c₁ d₁ _ _ hfirst => ?_
  exact chain_alike hst hmoves hop hne hsigns ⟨hfirst.moved, hfirst.facing.near⟩ (Nat.le_refl _)
    (Nat.le_refl _)

end Operations

section Sources

variable {s t : List Char} (hst : Spaced s t) (scope : Scope) (limit : Int)

include hst

/-- An expression is read alike if its factors are. -/
theorem expression_alike {factor : Rule Expr} (hmoves : Moves factor)
    (hfactor : Alike s t (Near s t) factor factor (Finished s t)) :
    Alike s t (Near s t) (expression factor) (expression factor) (Finished s t) := by
  have hterm : Alike s t (Near s t) (term factor) (term factor) (Finished s t) :=
    operations_alike hst hmoves hfactor (by simp) (by simp)
  exact operations_alike hst (operations_moves hmoves _) hterm (by simp) (by simp)

/-- **A factor is read alike with spaces put in.** -/
theorem factor_alike (n : Nat) :
    Alike s t (Near s t) (factor scope limit n) (factor scope limit n) (Finished s t) := by
  induction n with
  | zero =>
      intro c d h
      exact ⟨rfl, fun hkind => absurd rfl hkind⟩
  | succ n ih =>
      intro c d h
      refine (eatAny_alike hst (by simp) (by simp) c d h).bind
        fun found found' c₁ d₁ _ _ hfound => ?_
      obtain ⟨rfl, hnear, hlast, -⟩ := hfound
      cases found with
      | some sign =>
          have hplace := hlast (by simp)
          refine (ih c₁ d₁ hnear).bind fun operand operand' c₂ d₂ _ _ hoperand => ?_
          exact ⟨⟨hplace, rfl, hoperand.moved⟩, hoperand.facing⟩
      | none =>
          have hexp := expression_alike hst (factor_moves scope limit n) ih
          refine (base_alike hst scope hexp c₁ d₁ hnear).bind
            fun bottom bottom' c₂ d₂ _ _ hbottom => ?_
          refine (eat_alike hst (by decide) c₂ d₂ hbottom.near).bind
            fun raised raised' c₃ d₃ _ _ hfound => ?_
          obtain ⟨rfl, hnear, hlast, hfacing⟩ := hfound
          cases raised with
          | false => exact ⟨hbottom.moved, hfacing rfl⟩
          | true =>
              have hplace := hlast (by simp)
              refine (ih c₃ d₃ hnear).bind fun exponent exponent' c₄ d₄ _ _ hexponent => ?_
              exact ⟨⟨hplace, rfl, hbottom.moved, hexponent.moved⟩, hexponent.facing⟩

/-- The whole of both sources is read alike. -/
theorem whole_alike :
    Alike s t (Near s t) (whole scope limit) (whole scope limit) (Finished s t) := by
  intro c d h
  have hexp := expression_alike hst (factor_moves scope limit (allowance limit 0))
    (factor_alike hst scope limit (allowance limit 0))
  refine (hexp c d h).bind fun tree tree' c₁ d₁ _ _ ⟨hmoved, hfacing⟩ => ?_
  rw [bind_of_ok (get_eq c₁), bind_of_ok (get_eq d₁)]
  rcases hfacing.opposite with ⟨hc, hd⟩ | ⟨x, cs, ds, hx, hc, hd⟩
  · rw [if_pos (hfacing.near.started.atEnd_iff.mpr hc),
      if_pos (hfacing.near.started'.atEnd_iff.mpr hd)]
    exact ⟨hmoved, hfacing⟩
  · have hleft : ¬ c₁.atEnd := by
      rw [hfacing.near.started.atEnd_iff, hc]
      exact List.cons_ne_nil _ _
    have hleft' : ¬ d₁.atEnd := by
      rw [hfacing.near.started'.atEnd_iff, hd]
      exact List.cons_ne_nil _ _
    rw [if_neg hleft, if_neg hleft']
    refine fail_matched hst _ _ ?_ hfacing
    exact congrArg ParseFault.trailing hfacing.head?_eq

end Sources

end Grammar

/-- **Spaces between tokens change nothing but positions.**  If a source is read,
so is the source with spaces put in, and the trees are the same but for their
positions, which hold the same characters.  If it is not read, neither is the
other, with a fault of the same kind and name; and unless factors nest too
deeply, the faults lie at the same character, or both at the end. -/
theorem parse_spaced (scope : Scope) (limit : Int) {source spaced : String}
    (h : Spaced source.toList spaced.toList) :
    (∀ tree, parse scope limit source = .ok tree → ∃ tree', parse scope limit spaced = .ok tree' ∧
      tree.Moved (SameCharacter source.toList spaced.toList) tree') ∧
    (∀ e, parse scope limit source = .error e → ∃ e', parse scope limit spaced = .error e' ∧
      e'.fault.kind = e.fault.kind ∧ e'.fault.name? = e.fault.name? ∧
      (e.fault.kind ≠ .nestingTooDeep →
        SamePlace source.toList spaced.toList e.position e'.position)) := by
  have hstart : Near source.toList spaced.toList (Cursor.ofSource source).advance
      (Cursor.ofSource spaced).advance :=
    ⟨Cursor.started_advance_ofSource source, Cursor.started_advance_ofSource spaced, rfl, rfl,
      Int.natCast_nonneg _, Int.natCast_nonneg _, h⟩
  have hmatched := Grammar.whole_alike h scope limit _ _ hstart
  unfold parse
  cases hread : Grammar.whole scope limit (Cursor.ofSource source).advance with
  | ok tree c =>
      rw [hread] at hmatched
      obtain ⟨tree', d, hread', hfinished⟩ := hmatched.of_ok
      rw [hread']
      refine ⟨?_, nofun⟩
      rintro _ ⟨⟩
      exact ⟨tree', rfl, hfinished.moved⟩
  | error e c =>
      rw [hread] at hmatched
      obtain ⟨e', d, hread', hmoved⟩ := hmatched.of_error
      rw [hread']
      refine ⟨nofun, ?_⟩
      rintro _ ⟨⟩
      exact ⟨e', rfl, hmoved.fault.kind_eq.symm, hmoved.fault.name?_eq.symm, hmoved.place⟩

/-- A group that is not closed where another character stands. -/
theorem parse_spaced_group : ∃ e e', parse .seeded 100 "pi*(2$" = .error e ∧
    parse .seeded 100 " pi *( 2  $" = .error e' ∧ e'.fault.kind = e.fault.kind ∧
    SamePlace "pi*(2$".toList " pi *( 2  $".toList e.position e'.position := by
  have hspaced : Spaced "pi*(2$".toList " pi *( 2  $".toList := by
    show Spaced ['p', 'i', '*', '(', '2', '$']
      [' ', 'p', 'i', ' ', '*', '(', ' ', '2', ' ', ' ', '$']
    refine .gap (.keep (.keep (.gap (.keep (.keep (.gap (.keep (.gap (.gap (.keep .done ?_))) ?_))
      ?_) ?_)) ?_) ?_)
    all_goals simp [Joined, Cursor.isNumeric, Cursor.isAlphabetic]
  have hread : parse .seeded 100 "pi*(2$" = .error ⟨.unclosedGroup 3, 5⟩ := by decide +kernel
  obtain ⟨e', hread', hkind, -, hplace⟩ := (parse_spaced .seeded 100 hspaced).2 _ hread
  exact ⟨_, e', hread, hread', hkind, hplace (by decide)⟩

end Reckon
