import Reckon.Proofs.Phrase
import Reckon.Proofs.Progress
import Reckon.Proofs.Unplaced
/-!
# What the rules read

The rules of the grammar read phrases.  A rule that succeeds has read one:
what it consumed spells the tokens of a phrase, and the tree it returns is the
tree of that phrase (`factor_reads`).  And where the tokens of a phrase stand,
followed by something with which the phrase could not go on, the rule does
succeed (`admitted`).  So a source is read exactly when it is the spelling of an
expression.
-/

namespace Reckon

namespace Grammar

/-! ### Consuming tokens -/

/-- What was consumed between two cursors is a text that spells some tokens,
by itself and in front of anything with which the rest begins. -/
def Consumes (c c' : Cursor) (used : List Token) : Prop :=
  ∃ text, c.rest = text ++ c'.rest ∧
    ∀ rest ts, rest <+: c'.rest → Spells rest ts → Spells (text ++ rest) (used ++ ts)

/-- Of two stretches the tokens follow each other. -/
theorem Consumes.trans {c c₁ c₂ : Cursor} {ts us : List Token} (h : Consumes c c₁ ts)
    (h' : Consumes c₁ c₂ us) : Consumes c c₂ (ts ++ us) := by
  obtain ⟨text, heq, hspells⟩ := h
  obtain ⟨text', heq', hspells'⟩ := h'
  refine ⟨text ++ text', by rw [heq, heq', List.append_assoc], fun rest vs hrest hvs => ?_⟩
  rw [List.append_assoc, List.append_assoc]
  refine hspells _ _ ?_ (hspells' rest vs hrest hvs)
  rw [heq']
  exact (List.prefix_append_right_inj text').mpr hrest

/-- Between a cursor and itself nothing is consumed. -/
theorem Consumes.refl (c : Cursor) : Consumes c c [] :=
  ⟨[], rfl, fun _ _ _ hts => hts⟩

/-- Where nothing more is left, everything was consumed. -/
theorem Consumes.spells {c c' : Cursor} {ts : List Token} (h : Consumes c c' ts)
    (hrest : c'.rest = []) : Spells c.rest ts := by
  obtain ⟨text, heq, hspells⟩ := h
  rw [heq, hrest, ← List.append_nil ts]
  exact hspells [] [] List.nil_prefix .done

/-- A run that was scanned stood there. -/
theorem consumes_scan {p : Char → Bool} {c : Cursor} {t : Token}
    (ht : ∀ rest ts, (∀ d, rest.head? = some d → p d = false) → Spells rest ts →
      Spells (c.rest.takeWhile p ++ rest) (t :: ts)) : Consumes c (c.scan p).2 [t] := by
  refine ⟨c.rest.takeWhile p, ?_, fun rest ts hprefix hts => ht rest ts (fun d hd => ?_) hts⟩
  · rw [c.rest_scan, List.takeWhile_append_dropWhile]
  · obtain ⟨more, hmore⟩ := hprefix
    rw [c.rest_scan] at hmore
    exact head?_dropWhile_ne (by rw [← hmore, List.head?_append, hd]; rfl)

/-- A mark that was eaten stood there. -/
theorem eat_true {c c' : Cursor} (h : c.Started) {x : Char} (hx : x ∈ marks)
    (hok : eat x c = .ok true c') : c'.Started ∧ Consumes c c' [.mark x] := by
  obtain ⟨c₁, rest, hrun, hstarted, hcons, hrest⟩ | ⟨c₁, hrun, -⟩ := eat_cases h x
  · cases hok.symm.trans hrun
    obtain ⟨gap, hgap, hsplit⟩ := exists_gap c.rest
    refine ⟨hstarted, gap ++ [x], ?_, fun rest' ts _ hts => ?_⟩
    · rw [hrest, List.append_assoc, List.singleton_append, ← hcons, ← hsplit]
    · rw [List.append_assoc]
      exact .spaces_append hgap (.mark hx hts)
  · cases hok.symm.trans hrun

/-- A mark that was not eaten takes nothing away but spaces. -/
theorem eat_false {c c' : Cursor} (h : c.Started) {x : Char} (hok : eat x c = .ok false c') :
    c'.Started ∧ Consumes c c' [] := by
  obtain ⟨c₁, rest, hrun, -⟩ | ⟨c₁, hrun, hstarted, hrest, -⟩ := eat_cases h x
  · cases hok.symm.trans hrun
  · cases hok.symm.trans hrun
    obtain ⟨gap, hgap, hsplit⟩ := exists_gap c.rest
    exact ⟨hstarted, gap, hrest.symm ▸ hsplit, fun rest ts _ hts => .spaces_append hgap hts⟩

/-- A mark that is found is one of those that were tried, and is consumed. -/
theorem eatAny_some {signs : List Char} (hsigns : ∀ x ∈ signs, x ∈ marks) {c c' : Cursor}
    (h : c.Started) {x : Char} (hok : eatAny signs c = .ok (some x) c') :
    x ∈ signs ∧ c'.Started ∧ Consumes c c' [.mark x] := by
  induction signs generalizing c with
  | nil => cases hok
  | cons y signs ih =>
      obtain ⟨found, c₁, heat, hok⟩ := bind_eq_ok.mp hok
      cases found with
      | true =>
          cases hok
          have hread := eat_true h (hsigns _ List.mem_cons_self) heat
          exact ⟨List.mem_cons_self, hread⟩
      | false =>
          obtain ⟨hstarted, hnone⟩ := eat_false h heat
          obtain ⟨hmem, hread, hsome⟩ :=
            ih (fun z hz => hsigns z (List.mem_cons_of_mem _ hz)) hstarted hok
          exact ⟨List.mem_cons_of_mem _ hmem, hread, hnone.trans hsome⟩

/-- Where none is found only spaces are consumed. -/
theorem eatAny_none {signs : List Char} {c c' : Cursor} (h : c.Started)
    (hok : eatAny signs c = .ok none c') : c'.Started ∧ Consumes c c' [] := by
  induction signs generalizing c with
  | nil =>
      cases hok
      exact ⟨h, .refl _⟩
  | cons y signs ih =>
      obtain ⟨found, c₁, heat, hok⟩ := bind_eq_ok.mp hok
      cases found with
      | true => cases hok
      | false =>
          obtain ⟨hstarted, hnone⟩ := eat_false h heat
          obtain ⟨hread, hmore⟩ := ih hstarted hok
          exact ⟨hread, hnone.trans hmore⟩

/-! ### Soundness: what a rule returns it has read -/

section Sound

variable (scope : Scope) (n : Nat)

/-- Between two cursors a phrase was read behind a tree `left`, with at most
`n` factors within each other, and became a tree. -/
structure Reading {part : Part} (p : Phrase part) (left : Expr) (c c' : Cursor) (tree : Expr) :
    Prop where
  started : c'.Started
  resolved : p.Resolved scope
  nesting_le : p.nesting ≤ n
  tree_eq : tree.unplaced = p.treeBehind scope left.unplaced
  consumes : Consumes c c' p.tokens

/-- Whatever the rule returns is the tree of a phrase that it has read. -/
def Reads (part : Part) (rule : Rule Expr) : Prop :=
  ∀ {c c' : Cursor} {tree : Expr}, c.Started → rule c = .ok tree c' →
    ∃ p : Phrase part, Reading scope n p .absent c c' tree

/-- A number that is read is a phrase of one numeral. -/
theorem number_reads {c c' : Cursor} {tree : Expr} (h : c.Started)
    (hok : number c = .ok tree c') : ∃ p : Phrase .base, Reading scope n p .absent c c' tree := by
  obtain ⟨start, c₁, hhere, hok⟩ := bind_eq_ok.mp hok
  cases hhere
  obtain ⟨text, c₂, hscan, hok⟩ := bind_eq_ok.mp hok
  cases hscan
  cases hvalue : Double.ofNumeral? (c.rest.takeWhile Cursor.isNumeric) with
  | none =>
      simp only [hvalue] at hok
      cases hok
  | some x =>
      simp only [hvalue] at hok
      cases hok
      have htext : IsNumeral (c.rest.takeWhile Cursor.isNumeric) :=
        (Double.isSome_ofNumeral? of_mem_takeWhile).mp (by simp [hvalue])
      refine ⟨.number _ htext, h.scan _, trivial, Nat.zero_le _, ?_,
        consumes_scan fun rest ts hrest hts => .numeral_append htext hrest hts⟩
      have hx : htext.value = x := Option.get_of_eq_some _ hvalue
      rw [Expr.unplaced, Phrase.treeBehind, hx]

/-- Behind a name that was consumed from `c₀` on, a reference is read. -/
theorem reference_reads {name : List Char} (hname : IsName name) {start : Int}
    {c₀ c c' : Cursor} {tree : Expr} (hconsumes : Consumes c₀ c [.name name]) (h : c.Started)
    (hok : reference scope (String.ofList name) start c = .ok tree c') :
    ∃ p : Phrase .base, Reading scope n p .absent c₀ c' tree := by
  unfold reference at hok
  cases hfind : scope.find? (String.ofList name) with
  | none =>
      rw [hfind] at hok
      cases hok
  | some producer =>
      rw [hfind] at hok
      cases hok
      refine ⟨.reference name hname, h, by simp [Phrase.Resolved, hfind], Nat.zero_le _, ?_,
        hconsumes⟩
      simp [Expr.unplaced, Phrase.treeBehind, hfind]

/-- A method that is read is a name with its parentheses. -/
theorem method_reads {name : List Char} (hname : IsName name) {start : Int}
    {c₀ c c' : Cursor} {tree : Expr}
    (hconsumes : Consumes c₀ c [.name name, .mark '(', .mark ')']) (h : c.Started)
    (hok : method (String.ofList name) start c = .ok tree c') :
    ∃ p : Phrase .base, Reading scope n p .absent c₀ c' tree := by
  unfold method at hok
  split at hok
  · next hmem =>
      cases hok
      exact ⟨.method name hname, h, hmem, Nat.zero_le _, rfl, hconsumes⟩
  · cases hok

/-- A call that is read is a name with the phrase of its argument. -/
theorem call_reads {expression : Rule Expr} (hexp : Reads scope n .expression expression)
    {name : List Char} (hname : IsName name) {start : Int} {c₀ c c' : Cursor} {tree : Expr}
    (hconsumes : Consumes c₀ c [.name name, .mark '(']) (h : c.Started)
    (hok : call expression (String.ofList name) start c = .ok tree c') :
    ∃ p : Phrase .base, Reading scope n p .absent c₀ c' tree := by
  obtain ⟨argument, c₁, hargument, hok⟩ := bind_eq_ok.mp hok
  obtain ⟨p, hread⟩ := hexp h hargument
  obtain ⟨closed, c₂, heat, hok⟩ := bind_eq_ok.mp hok
  cases closed with
  | false => cases hok
  | true =>
      obtain ⟨hstarted, hclose⟩ := eat_true hread.started (by decide) heat
      simp only [if_true] at hok
      split at hok
      · next hfunction =>
          cases hok
          refine ⟨.call name hname p, hstarted, ⟨hfunction, hread.resolved⟩, hread.nesting_le,
            ?_, ?_⟩
          · simp only [Expr.unplaced, Phrase.treeBehind, hread.tree_eq]
          · exact hconsumes.trans (hread.consumes.trans hclose)
      · cases hok

/-- What begins with a name and is read is a variable, a method or a call. -/
theorem identifier_reads {expression : Rule Expr} (hexp : Reads scope n .expression expression)
    {c c' : Cursor} {tree : Expr} (h : c.Started)
    (hcur : IsName (c.rest.takeWhile Cursor.isAlphabetic))
    (hok : identifier scope expression c = .ok tree c') :
    ∃ p : Phrase .base, Reading scope n p .absent c c' tree := by
  obtain ⟨start, c₁, hhere, hok⟩ := bind_eq_ok.mp hok
  cases hhere
  obtain ⟨text, c₂, hscan, hok⟩ := bind_eq_ok.mp hok
  cases hscan
  have hname : Consumes c (c.scan Cursor.isAlphabetic).2
      [.name (c.rest.takeWhile Cursor.isAlphabetic)] :=
    consumes_scan fun rest ts hrest hts => .name_append hcur hrest hts
  obtain ⟨called, c₃, heat, hok⟩ := bind_eq_ok.mp hok
  cases called with
  | false =>
      obtain ⟨hstarted, hnone⟩ := eat_false (h.scan _) heat
      exact reference_reads scope n hcur (hname.trans hnone) hstarted hok
  | true =>
      obtain ⟨hstarted, hopen⟩ := eat_true (h.scan _) (by decide) heat
      obtain ⟨closed, c₄, heat, hok⟩ := bind_eq_ok.mp hok
      cases closed with
      | true =>
          obtain ⟨hstarted, hclose⟩ := eat_true hstarted (by decide) heat
          exact method_reads scope n hcur ((hname.trans hopen).trans hclose) hstarted hok
      | false =>
          obtain ⟨hstarted, hnone⟩ := eat_false hstarted heat
          exact call_reads scope n hexp hcur ((hname.trans hopen).trans hnone) hstarted hok

/-- A base that is read is a group, a numeral, or begins with a name. -/
theorem base_reads {expression : Rule Expr} (hexp : Reads scope n .expression expression) :
    Reads scope n .base (base scope expression) := by
  intro c c' tree h hok
  obtain ⟨opened, c₁, heat, hok⟩ := bind_eq_ok.mp hok
  cases opened with
  | true =>
      obtain ⟨hstarted, hopen⟩ := eat_true h (by decide) heat
      obtain ⟨place, c₂, hplace, hok⟩ := bind_eq_ok.mp hok
      cases hplace
      obtain ⟨inner, c₃, hinner, hok⟩ := bind_eq_ok.mp hok
      obtain ⟨p, hread⟩ := hexp hstarted hinner
      obtain ⟨closed, c₄, heat, hok⟩ := bind_eq_ok.mp hok
      cases closed with
      | false => cases hok
      | true =>
          obtain ⟨hstarted, hclose⟩ := eat_true hread.started (by decide) heat
          cases hok
          exact ⟨.group p, hstarted, hread.resolved, hread.nesting_le, hread.tree_eq,
            hopen.trans (hread.consumes.trans hclose)⟩
  | false =>
      obtain ⟨hstarted, hnone⟩ := eat_false h heat
      obtain ⟨found, c₂, hcurrent, hok⟩ := bind_eq_ok.mp hok
      cases hcurrent
      cases hhead : c₁.rest with
      | nil =>
          simp only [Cursor.current, hhead, List.head?_nil] at hok
          cases hok
      | cons d rest =>
          simp only [Cursor.current, hhead, List.head?_cons] at hok
          have hbehind : ∀ {p : Phrase .base}, Reading scope n p .absent c₁ c' tree →
              Reading scope n p .absent c c' tree := by
            intro p hread
            exact { hread with consumes := hnone.trans hread.consumes }
          split at hok
          · obtain ⟨p, hread⟩ := number_reads scope n hstarted hok
            exact ⟨p, hbehind hread⟩
          · split at hok
            · next halpha =>
                have hname : IsName (c₁.rest.takeWhile Cursor.isAlphabetic) :=
                  ⟨by simp [hhead, halpha], of_mem_takeWhile⟩
                obtain ⟨p, hread⟩ := identifier_reads scope n hexp hstarted hname hok
                exact ⟨p, hbehind hread⟩
            · cases hok

/-- Every sign of an operator is a mark. -/
theorem signs_subset_marks (r : Rank) : ∀ x ∈ r.signs, x ∈ marks := by
  cases r <;> simp [Rank.signs, marks]

/-- Links are read one after the other, each behind the tree so far. -/
theorem chain_reads {r : Rank} {operand : Rule Expr} (hop : Reads scope n r.operand operand)
    (left : List Char) : ∀ {before tree : Expr} {c c' : Cursor}, c.Started →
      chain operand r.signs left before c = .ok tree c' →
      ∃ p : Phrase (.links r), Reading scope n p before c c' tree := by
  induction left with
  | nil =>
      intro before tree c c' h hok
      cases hok
      exact ⟨.stop, h, trivial, Nat.zero_le _, rfl, .refl _⟩
  | cons _ left ih =>
      intro before tree c c' h hok
      obtain ⟨found, c₁, heat, hok⟩ := bind_eq_ok.mp hok
      cases found with
      | none =>
          cases hok
          obtain ⟨hstarted, hnone⟩ := eatAny_none h heat
          exact ⟨.stop, hstarted, trivial, Nat.zero_le _, rfl, hnone⟩
      | some sign =>
          obtain ⟨hsign, hstarted, hsome⟩ := eatAny_some (signs_subset_marks r) h heat
          obtain ⟨place, c₂, hplace, hok⟩ := bind_eq_ok.mp hok
          cases hplace
          obtain ⟨right, c₃, hright, hok⟩ := bind_eq_ok.mp hok
          obtain ⟨p, hread⟩ := hop hstarted hright
          obtain ⟨rest, hrest⟩ := ih hread.started hok
          refine ⟨.link sign hsign p rest, hrest.started, ⟨hread.resolved, hrest.resolved⟩,
            Nat.max_le.mpr ⟨hread.nesting_le, hrest.nesting_le⟩, ?_,
            hsome.trans (hread.consumes.trans hrest.consumes)⟩
          rw [hrest.tree_eq, Expr.unplaced, hread.tree_eq]
          rfl

/-- A first operand and links behind it are a chain. -/
theorem operations_reads {r : Rank} {operand : Rule Expr} (hop : Reads scope n r.operand operand) :
    Reads scope n (.chain r) (operations operand r.signs) := by
  intro c c' tree h hok
  obtain ⟨first, c₁, hfirst, hok⟩ := bind_eq_ok.mp hok
  obtain ⟨p, hread⟩ := hop h hfirst
  obtain ⟨cursor, c₂, hget, hok⟩ := bind_eq_ok.mp hok
  cases hget
  obtain ⟨rest, hrest⟩ := chain_reads scope n hop c₁.rest hread.started hok
  refine ⟨.chain p rest, hrest.started, ⟨hread.resolved, hrest.resolved⟩,
    Nat.max_le.mpr ⟨hread.nesting_le, hrest.nesting_le⟩, ?_, hread.consumes.trans hrest.consumes⟩
  rw [hrest.tree_eq, hread.tree_eq]
  rfl

/-- An expression reads a chain of chains of factors. -/
theorem expression_reads {factor : Rule Expr} (hfactor : Reads scope n .factor factor) :
    Reads scope n .expression (expression factor) :=
  operations_reads scope n (r := .sum) (operations_reads scope n (r := .product) hfactor)

/-- **A factor reads a phrase**, with no more factors within each other than
it was allowed. -/
theorem factor_reads (limit : Int) : Reads scope n .factor (factor scope limit n) := by
  induction n with
  | zero =>
      intro c c' tree h hok
      cases hok
  | succ n ih =>
      intro c c' tree h hok
      obtain ⟨found, c₁, heat, hok⟩ := bind_eq_ok.mp hok
      cases found with
      | some sign =>
          obtain ⟨hsign, hstarted, hsome⟩ := eatAny_some (signs_subset_marks .sum) h heat
          obtain ⟨place, c₂, hplace, hok⟩ := bind_eq_ok.mp hok
          cases hplace
          obtain ⟨operand, c₃, hoperand, hok⟩ := bind_eq_ok.mp hok
          cases hok
          obtain ⟨p, hread⟩ := ih hstarted hoperand
          refine ⟨.signed sign hsign p, hread.started, hread.resolved,
            Nat.succ_le_succ hread.nesting_le, ?_, hsome.trans hread.consumes⟩
          rw [Expr.unplaced, hread.tree_eq]
          rfl
      | none =>
          obtain ⟨hstarted, hnone⟩ := eatAny_none h heat
          obtain ⟨bottom, c₂, hbottom, hok⟩ := bind_eq_ok.mp hok
          obtain ⟨p, hread⟩ := base_reads scope n (expression_reads scope n ih) hstarted hbottom
          obtain ⟨raised, c₃, heat, hok⟩ := bind_eq_ok.mp hok
          cases raised with
          | false =>
              cases hok
              obtain ⟨hstarted, hstay⟩ := eat_false hread.started heat
              have hconsumes := hnone.trans (hread.consumes.trans hstay)
              rw [List.append_nil] at hconsumes
              exact ⟨.plain p, hstarted, hread.resolved, Nat.succ_le_succ hread.nesting_le,
                hread.tree_eq, hconsumes⟩
          | true =>
              obtain ⟨hstarted, hcaret⟩ := eat_true hread.started (by decide) heat
              obtain ⟨place, c₄, hplace, hok⟩ := bind_eq_ok.mp hok
              cases hplace
              obtain ⟨exponent, c₅, hexponent, hok⟩ := bind_eq_ok.mp hok
              cases hok
              obtain ⟨q, hread'⟩ := ih hstarted hexponent
              refine ⟨.power p q, hread'.started, ⟨hread.resolved, hread'.resolved⟩,
                Nat.succ_le_succ (Nat.max_le.mpr ⟨hread.nesting_le, hread'.nesting_le⟩), ?_,
                hnone.trans (hread.consumes.trans (hcaret.trans hread'.consumes))⟩
              rw [Expr.unplaced, hread.tree_eq, hread'.tree_eq]
              rfl

end Sound

/-! ### Completeness: what stands there is read -/

/-- The cursor stands before the tokens, and before nothing else. -/
structure Before (c : Cursor) (ts : List Token) : Prop where
  started : c.Started
  spells : Spells c.rest ts

/-- A mark that stands there is eaten. -/
theorem eat_of_mark {c : Cursor} {x : Char} {ts : List Token} (h : Before c (.mark x :: ts)) :
    ∃ c', eat x c = .ok true c' ∧ Before c' ts := by
  obtain ⟨rest, hcons, hspells⟩ := h.spells.behindSpaces.mark_inv (head?_behindSpaces_ne _)
  obtain ⟨c', rest', hrun, hstarted, hcons', hrest⟩ | ⟨c', hrun, -, hrest, hne⟩ :=
    eat_cases h.started x
  · obtain ⟨-, rfl⟩ := List.cons.inj (hcons.symm.trans hcons')
    exact ⟨c', hrun, hstarted, hrest ▸ hspells⟩
  · exact absurd (by rw [hrest, hcons]; rfl) hne

/-- Where another token stands no mark is eaten, only spaces. -/
theorem eat_of_ne {c : Cursor} {x : Char} (hx : x ∈ marks) {ts : List Token} (h : Before c ts)
    (hne : ts.head? ≠ some (.mark x)) :
    ∃ c', eat x c = .ok false c' ∧ Before c' ts ∧ c'.rest.head? ≠ some ' ' := by
  have hbehind := h.spells.behindSpaces
  obtain ⟨c', rest, hrun, -, hcons, -⟩ | ⟨c', hrun, hstarted, hrest, -⟩ := eat_cases h.started x
  · rw [hcons] at hbehind
    obtain ⟨hspace, hnumeric, halphabetic⟩ := class_of_mem_marks hx
    obtain ⟨heq, -⟩ | ⟨-, us, rfl, -⟩ | ⟨hc, -⟩ | ⟨hc, -⟩ := hbehind.cons_inv
    · exact absurd heq hspace
    · exact absurd rfl hne
    · exact absurd hc (by simp [hnumeric])
    · exact absurd hc (by simp [halphabetic])
  · exact ⟨c', hrun, ⟨hstarted, hrest ▸ hbehind⟩, hrest ▸ head?_behindSpaces_ne _⟩

/-- A mark that stands there is found among those that are tried. -/
theorem eatAny_of_mark {signs : List Char} (hsigns : ∀ x ∈ signs, x ∈ marks) {c : Cursor}
    {x : Char} (hx : x ∈ signs) {ts : List Token} (h : Before c (.mark x :: ts)) :
    ∃ c', eatAny signs c = .ok (some x) c' ∧ Before c' ts := by
  induction signs generalizing c with
  | nil => simp at hx
  | cons y signs ih =>
      by_cases hxy : x = y
      · subst hxy
        obtain ⟨c', heat, hbefore⟩ := eat_of_mark h
        exact ⟨c', bind_of_ok heat _, hbefore⟩
      · obtain ⟨c₁, heat, hbefore, -⟩ :=
          eat_of_ne (hsigns y List.mem_cons_self) h (by simpa using hxy)
        obtain ⟨c', hrun, hafter⟩ := ih (fun z hz => hsigns z (List.mem_cons_of_mem _ hz))
          ((List.mem_cons.mp hx).resolve_left hxy) hbefore
        exact ⟨c', (bind_of_ok heat _).trans hrun, hafter⟩

/-- Where another token stands no mark is found. -/
theorem eatAny_of_ne {signs : List Char} (hsigns : ∀ x ∈ signs, x ∈ marks) {c : Cursor}
    {ts : List Token} (h : Before c ts) (hne : ∀ x ∈ signs, ts.head? ≠ some (.mark x)) :
    ∃ c', eatAny signs c = .ok none c' ∧ Before c' ts := by
  induction signs generalizing c with
  | nil => exact ⟨c, rfl, h⟩
  | cons y signs ih =>
      obtain ⟨c₁, heat, hbefore, -⟩ :=
        eat_of_ne (hsigns y List.mem_cons_self) h (hne y List.mem_cons_self)
      obtain ⟨c', hrun, hafter⟩ := ih (fun z hz => hsigns z (List.mem_cons_of_mem _ hz)) hbefore
        (fun z hz => hne z (List.mem_cons_of_mem _ hz))
      exact ⟨c', (bind_of_ok heat _).trans hrun, hafter⟩

section Complete

variable (scope : Scope) (limit : Int)

/-- Where the tokens of the phrase stand, followed by something with which it
cannot go on, the rule succeeds and stops behind them. -/
def Accepts {part : Part} (rule : Rule Expr) (p : Phrase part) : Prop :=
  ∀ {c : Cursor} {ts : List Token}, Before c (p.tokens ++ ts) → part.Stops ts →
    ∃ tree c', rule c = .ok tree c' ∧ Before c' ts

/-- The operands of a rank, with `n` factors still allowed. -/
def operandRule (n : Nat) : Rank → Rule Expr
  | .sum => term (factor scope limit n)
  | .product => factor scope limit n

/-- The rule of its part accepts a phrase, with `n` factors still allowed.
Links are accepted behind every tree, by a chain that may take as many turns
as they have tokens. -/
def Admitted (n : Nat) : {part : Part} → Phrase part → Prop
  | .chain r, p => Accepts (operations (operandRule scope limit n r) r.signs) p
  | .links r, p => ∀ (left : List Char) (before : Expr), p.tokens.length ≤ left.length →
      Accepts (chain (operandRule scope limit n r) r.signs left before) p
  | .factor, p => Accepts (factor scope limit n) p
  | .base, p => Accepts (base scope (expression (factor scope limit n))) p

/-- The operands of a rank are accepted by their own rule. -/
theorem accepts_operand {n : Nat} {r : Rank} {p : Phrase r.operand}
    (h : Admitted scope limit n p) : Accepts (operandRule scope limit n r) p := by
  cases r <;> exact h

/-- Where a numeral stands a number is read. -/
theorem number_of_numeral {c : Cursor} {text : List Char} {ts : List Token}
    (h : Before c (.numeral text :: ts)) (hhead : c.rest.head? ≠ some ' ') :
    ∃ tree c', number c = .ok tree c' ∧ Before c' ts := by
  obtain ⟨rfl, htext, hspells⟩ := h.spells.numeral_inv hhead
  obtain ⟨x, hvalue⟩ := Option.isSome_iff_exists.mp
    ((Double.isSome_ofNumeral? htext.numeric).mpr htext)
  refine ⟨.constant c.pos x, (c.scan Cursor.isNumeric).2, ?_, h.started.scan _, ?_⟩
  · have hhere : here c = .ok c.pos c := rfl
    have hscan : scan Cursor.isNumeric c = .ok (c.rest.takeWhile Cursor.isNumeric)
        (c.scan Cursor.isNumeric).2 := rfl
    rw [number, bind_of_ok hhere, bind_of_ok hscan, hvalue]
    rfl
  · rwa [c.rest_scan]

/-- Where no parenthesis stands, the rule of bases goes by the character behind
the spaces. -/
theorem base_of_ne (expression : Rule Expr) {c : Cursor} {ts : List Token} (h : Before c ts)
    (hne : ts.head? ≠ some (.mark '(')) :
    ∃ c₁, Before c₁ ts ∧ c₁.rest.head? ≠ some ' ' ∧ ∀ d rest, c₁.rest = d :: rest →
      base scope expression c =
        (if Cursor.isNumeric d then number
          else if Cursor.isAlphabetic d then identifier scope expression
          else fail (.unexpected (some d)) : Rule Expr) c₁ := by
  obtain ⟨c₁, heat, hbefore, hhead⟩ := eat_of_ne (x := '(') (by decide) h hne
  refine ⟨c₁, hbefore, hhead, fun d rest hrest => ?_⟩
  have hcurrent : current c₁ = .ok (some d) c₁ := by
    show EStateM.Result.ok c₁.rest.head? c₁ = _
    rw [hrest, List.head?_cons]
  rw [base, bind_of_ok heat]
  exact bind_of_ok hcurrent _

/-- Where a numeral stands the rule of bases reads it. -/
theorem base_of_numeral {expression : Rule Expr} {c : Cursor} {text : List Char}
    {ts : List Token} (h : Before c (.numeral text :: ts)) :
    ∃ tree c', base scope expression c = .ok tree c' ∧ Before c' ts := by
  obtain ⟨c₁, hbefore, hhead, hbase⟩ := base_of_ne scope expression h (by simp)
  obtain ⟨htext, hnumeral, -⟩ := hbefore.spells.numeral_inv hhead
  obtain ⟨d, rest, hrest, hd⟩ := (htext ▸ hnumeral : IsNumeral _).head
  obtain ⟨tree, c', hrun, hafter⟩ := number_of_numeral hbefore hhead
  refine ⟨tree, c', ?_, hafter⟩
  rw [hbase d rest hrest, if_pos hd, hrun]

/-- Where a name stands the rule of bases reads it, and what follows decides
what it names. -/
theorem base_of_name {expression : Rule Expr} {c : Cursor} {name : List Char} {ts : List Token}
    (h : Before c (.name name :: ts)) :
    ∃ start c₂, Before c₂ ts ∧ base scope expression c =
      (do
        if ← eat '(' then
          if ← eat ')' then method (String.ofList name) start
          else call expression (String.ofList name) start
        else reference scope (String.ofList name) start : Rule Expr) c₂ := by
  obtain ⟨c₁, hbefore, hhead, hbase⟩ := base_of_ne scope expression h (by simp)
  obtain ⟨rfl, hname, hspells⟩ := hbefore.spells.name_inv hhead
  obtain ⟨d, rest, hrest, hd⟩ := hname.head
  have hnumeric : ¬ Cursor.isNumeric d = true := fun hn => by
    simp [isAlphabetic_of_isNumeric hn] at hd
  refine ⟨c₁.pos, (c₁.scan Cursor.isAlphabetic).2,
    ⟨hbefore.started.scan _, by rwa [c₁.rest_scan]⟩, ?_⟩
  rw [hbase d rest hrest, if_neg hnumeric, if_pos hd]
  rfl

/-- Where a base stands the rule of factors reads it and looks for an exponent. -/
theorem factor_of_base {n : Nat} {p : Phrase .base} (hp : Admitted scope limit n p) {c : Cursor}
    {ts : List Token} (h : Before c (p.tokens ++ ts)) (hstops : Part.base.Stops ts) :
    ∃ bottom c₂, Before c₂ ts ∧ factor scope limit (n + 1) c =
      (do
        if ← eat '^' then
          let place ← consumedAt
          let exponent ← factor scope limit n
          return .binary place "^" bottom exponent
        else return bottom : Rule Expr) c₂ := by
  obtain ⟨c₁, hrun₁, hbefore⟩ :=
    eatAny_of_ne (signs_subset_marks .sum) h (p.base_ne_sign ts)
  obtain ⟨bottom, c₂, hrun₂, hbefore⟩ := hp hbefore hstops
  exact ⟨bottom, c₂, hbefore, (bind_of_ok hrun₁ _).trans (bind_of_ok hrun₂ _)⟩

variable {scope limit} {n : Nat}

/-- A chain is accepted if its first operand and its links are. -/
theorem admitted_chain {r : Rank} {first : Phrase r.operand} {rest : Phrase (.links r)}
    (hfirst : Admitted scope limit n first) (hrest : Admitted scope limit n rest) :
    Admitted scope limit n (.chain first rest) := by
  intro c ts hbefore hstops
  simp only [Phrase.tokens, List.append_assoc] at hbefore
  obtain ⟨tree, c₁, hrun, hbefore⟩ :=
    accepts_operand scope limit hfirst hbefore (hstops.links rest)
  have hlength : rest.tokens.length ≤ c₁.rest.length := by
    have hle := hbefore.spells.length_le
    rw [List.length_append] at hle
    omega
  obtain ⟨tree', c', hrun', hafter⟩ := hrest c₁.rest tree hlength hbefore hstops
  exact ⟨tree', c', (bind_of_ok hrun _).trans hrun', hafter⟩

/-- No further link is accepted where the chain ends. -/
theorem admitted_stop (r : Rank) : Admitted scope limit n (.stop (r := r)) := by
  intro left before hlength c ts hbefore hstops
  cases left with
  | nil => exact ⟨before, c, rfl, hbefore⟩
  | cons _ left =>
      obtain ⟨c', hrun, hafter⟩ := eatAny_of_ne (signs_subset_marks r) hbefore hstops.ne_sign
      exact ⟨before, c', bind_of_ok hrun _, hafter⟩

/-- A link is accepted if its operand and the links behind it are. -/
theorem admitted_link {r : Rank} {sign : Char} (hsign : sign ∈ r.signs)
    {operand : Phrase r.operand} {rest : Phrase (.links r)}
    (hoperand : Admitted scope limit n operand) (hrest : Admitted scope limit n rest) :
    Admitted scope limit n (.link sign hsign operand rest) := by
  intro left before hlength c ts hbefore hstops
  simp only [Phrase.tokens, List.length_cons, List.length_append] at hlength
  simp only [Phrase.tokens, List.cons_append, List.append_assoc] at hbefore
  cases left with
  | nil => simp at hlength
  | cons _ left =>
      have hleft : rest.tokens.length ≤ left.length := by
        rw [List.length_cons] at hlength
        omega
      obtain ⟨c₁, hrun₁, hbefore⟩ := eatAny_of_mark (signs_subset_marks r) hsign hbefore
      obtain ⟨right, c₂, hrun₂, hbefore⟩ :=
        accepts_operand scope limit hoperand hbefore (Part.Stops.links hstops rest)
      obtain ⟨tree, c', hrun₃, hafter⟩ := hrest left
        (.binary (c₁.pos - 1) sign.toString before right) hleft hbefore hstops
      refine ⟨tree, c', (bind_of_ok hrun₁ _).trans ?_, hafter⟩
      exact (bind_of_ok hrun₂ _).trans hrun₃

/-- A sign in front takes one more factor. -/
theorem admitted_signed {sign : Char} (hsign : sign ∈ Rank.sum.signs) {operand : Phrase .factor}
    (h : Admitted scope limit n operand) :
    Admitted scope limit (n + 1) (.signed sign hsign operand) := by
  intro c ts hbefore hstops
  obtain ⟨c₁, hrun₁, hbefore⟩ := eatAny_of_mark (signs_subset_marks .sum) hsign hbefore
  obtain ⟨tree, c', hrun₂, hafter⟩ := h hbefore hstops
  exact ⟨_, c', (bind_of_ok hrun₁ _).trans (bind_of_ok hrun₂ _), hafter⟩

/-- A base alone is a factor of its own. -/
theorem admitted_plain {bottom : Phrase .base} (h : Admitted scope limit n bottom) :
    Admitted scope limit (n + 1) (.plain bottom) := by
  intro c ts hbefore hstops
  obtain ⟨tree, c₁, hbefore, hfactor⟩ := factor_of_base scope limit h hbefore hstops.base
  obtain ⟨c', hrun, hafter, -⟩ := eat_of_ne (by decide) hbefore (hstops '^' (by decide))
  exact ⟨tree, c', hfactor.trans (bind_of_ok hrun _), hafter⟩

/-- A power is one factor around its exponent. -/
theorem admitted_power {bottom : Phrase .base} {exponent : Phrase .factor}
    (hbottom : Admitted scope limit n bottom) (hexponent : Admitted scope limit n exponent) :
    Admitted scope limit (n + 1) (.power bottom exponent) := by
  intro c ts hbefore hstops
  simp only [Phrase.tokens, List.append_assoc, List.cons_append] at hbefore
  obtain ⟨tree, c₁, hbefore, hfactor⟩ :=
    factor_of_base scope limit hbottom hbefore (Part.Stops.caret _)
  obtain ⟨c₂, hrun₂, hbefore⟩ := eat_of_mark hbefore
  obtain ⟨tree', c', hrun₃, hafter⟩ := hexponent hbefore hstops
  exact ⟨_, c', hfactor.trans ((bind_of_ok hrun₂ _).trans (bind_of_ok hrun₃ _)), hafter⟩

/-- A group is accepted if the expression in it is. -/
theorem admitted_group {inner : Phrase .expression} (h : Admitted scope limit n inner) :
    Admitted scope limit n (.group inner) := by
  intro c ts hbefore hstops
  simp only [Phrase.tokens, List.cons_append, List.append_assoc] at hbefore
  obtain ⟨c₁, hrun₁, hbefore⟩ := eat_of_mark hbefore
  obtain ⟨tree, c₂, hrun₂, hbefore⟩ := h hbefore (Part.Stops.close _ _)
  obtain ⟨c', hrun₃, hafter⟩ := eat_of_mark hbefore
  refine ⟨tree, c', (bind_of_ok hrun₁ _).trans ?_, hafter⟩
  exact (bind_of_ok hrun₂ _).trans (bind_of_ok hrun₃ _)

/-- A variable is accepted if the scope binds it. -/
theorem admitted_reference {name : List Char} (hname : IsName name)
    (h : (scope.find? (String.ofList name)).isSome) :
    Admitted scope limit n (.reference name hname) := by
  intro c ts hbefore hstops
  obtain ⟨start, c₁, hbefore, hbase⟩ := base_of_name scope hbefore
  obtain ⟨c', hrun, hafter, -⟩ := eat_of_ne (by decide) hbefore (hstops '(' (by decide))
  obtain ⟨producer, hfind⟩ := Option.isSome_iff_exists.mp h
  refine ⟨.reference start (String.ofList name) producer, c', ?_, hafter⟩
  refine hbase.trans ((bind_of_ok hrun _).trans ?_)
  simp only [Bool.false_eq_true, if_false, reference, hfind]
  rfl

/-- A method is accepted if it is known. -/
theorem admitted_method {name : List Char} (hname : IsName name)
    (h : String.ofList name ∈ Method.names) : Admitted scope limit n (.method name hname) := by
  intro c ts hbefore hstops
  obtain ⟨start, c₁, hbefore, hbase⟩ := base_of_name scope hbefore
  obtain ⟨c₂, hrun₂, hbefore⟩ := eat_of_mark hbefore
  obtain ⟨c', hrun₃, hafter⟩ := eat_of_mark hbefore
  refine ⟨.method start (String.ofList name), c', ?_, hafter⟩
  refine hbase.trans ((bind_of_ok hrun₂ _).trans ((bind_of_ok hrun₃ _).trans ?_))
  simp only [if_true, method, h]
  rfl

/-- A call is accepted if its function is known and its argument accepted. -/
theorem admitted_call {name : List Char} (hname : IsName name) {argument : Phrase .expression}
    (hfunction : (Function.ofName? (String.ofList name)).isSome)
    (h : Admitted scope limit n argument) :
    Admitted scope limit n (.call name hname argument) := by
  intro c ts hbefore hstops
  simp only [Phrase.tokens, List.cons_append, List.append_assoc] at hbefore
  obtain ⟨start, c₁, hbefore, hbase⟩ := base_of_name scope hbefore
  obtain ⟨c₂, hrun₂, hbefore⟩ := eat_of_mark hbefore
  obtain ⟨c₃, hrun₃, hbefore, -⟩ := eat_of_ne (by decide) hbefore (argument.head?_ne_close _)
  obtain ⟨tree, c₄, hrun₄, hbefore⟩ := h hbefore (Part.Stops.close _ _)
  obtain ⟨c', hrun₅, hafter⟩ := eat_of_mark hbefore
  refine ⟨.call start (String.ofList name) tree, c', ?_, hafter⟩
  refine hbase.trans ((bind_of_ok hrun₂ _).trans ((bind_of_ok hrun₃ _).trans ?_))
  refine (bind_of_ok hrun₄ _).trans ((bind_of_ok hrun₅ _).trans ?_)
  simp only [if_true, hfunction]
  rfl

/-- **Where a phrase stands it is read.**  If its names mean something and it
nests no more factors than are allowed, the rule of its part accepts it. -/
theorem admitted {part : Part} (p : Phrase part) :
    ∀ n, p.Resolved scope → p.nesting ≤ n → Admitted scope limit n p := by
  induction p with
  | chain first rest ihf ihr =>
      intro n hres hn
      obtain ⟨hfirst, hrest⟩ := Nat.max_le.mp hn
      exact admitted_chain (ihf n hres.1 hfirst) (ihr n hres.2 hrest)
  | stop => exact fun n hres hn => admitted_stop _
  | link sign hsign operand rest iho ihr =>
      intro n hres hn
      obtain ⟨hoperand, hrest⟩ := Nat.max_le.mp hn
      exact admitted_link hsign (iho n hres.1 hoperand) (ihr n hres.2 hrest)
  | signed sign hsign operand ih =>
      intro n hres hn
      obtain ⟨m, rfl⟩ := Nat.exists_eq_add_one.mpr (Nat.lt_of_lt_of_le (Nat.succ_pos _) hn)
      exact admitted_signed hsign (ih m hres (Nat.le_of_succ_le_succ hn))
  | plain bottom ih =>
      intro n hres hn
      obtain ⟨m, rfl⟩ := Nat.exists_eq_add_one.mpr (Nat.lt_of_lt_of_le (Nat.succ_pos _) hn)
      exact admitted_plain (ih m hres (Nat.le_of_succ_le_succ hn))
  | power bottom exponent ihb ihe =>
      intro n hres hn
      obtain ⟨m, rfl⟩ := Nat.exists_eq_add_one.mpr (Nat.lt_of_lt_of_le (Nat.succ_pos _) hn)
      obtain ⟨hbottom, hexponent⟩ := Nat.max_le.mp (Nat.le_of_succ_le_succ hn)
      exact admitted_power (ihb m hres.1 hbottom) (ihe m hres.2 hexponent)
  | group inner ih => exact fun n hres hn => admitted_group (ih n hres hn)
  | number text htext => exact fun n hres hn _ _ hbefore hstops => base_of_numeral scope hbefore
  | reference name hname => exact fun n hres hn => admitted_reference hname hres
  | method name hname => exact fun n hres hn => admitted_method hname hres
  | call name hname argument ih =>
      exact fun n hres hn => admitted_call hname hres.1 (ih n hres.2 hn)

end Complete

/-! ### Whole sources -/

/-- The source has a derivation: it spells the phrase, all names of which mean
something in the scope, and which nests no more factors than the limit
allows. -/
structure Derives (scope : Scope) (limit : Int) (source : String) (p : Phrase .expression) :
    Prop where
  spells : Spells source.toList p.tokens
  resolved : p.Resolved scope
  nesting_le : (p.nesting : Int) ≤ limit

variable {scope : Scope} {limit : Int} {source : String}

/-- A source spells at most one phrase. -/
theorem phrase_unique {p q : Phrase .expression} (hp : Spells source.toList p.tokens)
    (hq : Spells source.toList q.tokens) : p = q := by
  have htokens : p.tokens ++ [] = q.tokens ++ [] := by
    rw [List.append_nil, List.append_nil, hp.unique hq]
  exact (p.unique q htokens (Part.Stops.nil _) (Part.Stops.nil _)).1

/-- A source that is read has a derivation, and is read as its tree. -/
theorem derives_of_parse {tree : Expr} (h : parse scope limit source = .ok tree) :
    ∃ p, Derives scope limit source p ∧ tree.unplaced = p.tree scope := by
  have hstarted := Cursor.started_advance_ofSource source
  unfold parse at h
  split at h
  · next tree' c' hwhole =>
      cases h
      obtain ⟨tree', c₁, hexp, hwhole⟩ := bind_eq_ok.mp hwhole
      obtain ⟨c₂, c₃, hget, hwhole⟩ := bind_eq_ok.mp hwhole
      cases hget
      obtain ⟨p, hread⟩ := expression_reads scope _ (factor_reads scope _ limit) hstarted hexp
      by_cases hend : c₁.atEnd
      · simp only [hend, if_true] at hwhole
        cases hwhole
        refine ⟨p, ⟨?_, hread.resolved, ?_⟩, hread.tree_eq⟩
        · have hrest := hread.started.atEnd_iff.mp hend
          have hspells := hread.consumes.spells hrest
          simpa [Cursor.advance, Cursor.ofSource] using hspells
        · have hle := hread.nesting_le
          have hpos := p.nesting_pos
          simp only [allowance] at hle
          omega
      · simp only [hend] at hwhole
        cases hwhole
  · cases h

/-- A source with a derivation is read. -/
theorem parse_of_derives {p : Phrase .expression} (h : Derives scope limit source p) :
    ∃ tree, parse scope limit source = .ok tree := by
  have hstarted := Cursor.started_advance_ofSource source
  have hbefore : Before (Cursor.ofSource source).advance (p.tokens ++ []) := by
    refine ⟨hstarted, ?_⟩
    simpa [Cursor.advance, Cursor.ofSource] using h.spells
  have hle : p.nesting ≤ allowance limit 0 := by
    have hnesting := h.nesting_le
    simp only [allowance]
    omega
  obtain ⟨tree, c', hrun, hafter⟩ :=
    admitted p _ h.resolved hle hbefore (Part.Stops.nil _)
  -- Only spaces could be left, and the chain of sums has skipped them.
  have hspace : c'.rest.head? ≠ some ' ' :=
    expression_halts scope limit _ hstarted hrun ' ' List.mem_cons_self
  have hend : c'.atEnd := hafter.started.atEnd_iff.mpr (hafter.spells.eq_nil_of_nil hspace)
  have hwhole : whole scope limit (Cursor.ofSource source).advance = .ok tree c' := by
    refine (bind_of_ok hrun _).trans ?_
    show (if c'.atEnd then return tree else fail (.trailing c'.current) : Rule Expr) c' = _
    rw [if_pos hend]
    rfl
  exact ⟨tree, by rw [parse, hwhole]⟩

/-- A text that spells a phrase is read if the phrase nests no more factors than
the limit allows. -/
theorem parse_of_spells {text : List Char} {p : Phrase .expression} (h : Spells text p.tokens)
    (hresolved : p.Resolved scope) (hle : p.nesting ≤ allowance limit 0) :
    ∃ tree, parse scope limit (String.ofList text) = .ok tree := by
  refine parse_of_derives (p := p) ⟨by rwa [String.toList_ofList], hresolved, ?_⟩
  have hpos := p.nesting_pos
  simp only [allowance] at hle
  omega

end Grammar

open Grammar in
/-- **Exactly the sentences of the grammar are read, and as their trees.**  A
source is read precisely when it has a derivation within the limit, all names
of which mean something; it spells at most one phrase; and what is read is,
but for positions, the tree of that phrase. -/
theorem parse_exactly_sentences (scope : Scope) (limit : Int) (source : String) :
    ((∃ tree, parse scope limit source = .ok tree) ↔ ∃ p, Derives scope limit source p) ∧
    (∀ p q : Phrase .expression, Spells source.toList p.tokens → Spells source.toList q.tokens →
      p = q) ∧
    (∀ (tree : Expr) (p : Phrase .expression), parse scope limit source = .ok tree →
      Spells source.toList p.tokens → tree.unplaced = p.tree scope) := by
  refine ⟨⟨?_, ?_⟩, fun p q hp hq => phrase_unique hp hq, ?_⟩
  · rintro ⟨tree, htree⟩
    obtain ⟨p, hp, -⟩ := derives_of_parse htree
    exact ⟨p, hp⟩
  · rintro ⟨p, hp⟩
    exact parse_of_derives hp
  · intro tree p htree hp
    obtain ⟨q, hq, heq⟩ := derives_of_parse htree
    rw [heq, phrase_unique hp hq.spells]

end Reckon
