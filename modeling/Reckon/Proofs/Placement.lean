import Reckon.Proofs.Truth
/-!
# Where the nodes of a tree stand

A tree that was read accounts for its whole source (`parse_accounts`): every
node stands at its position, as an operator, a name or a numeral that is a whole
run; in the order of the operators between their operands the nodes stand one
behind the other; and whatever is no space and no parenthesis belongs to the
token of exactly one node.

What carries this is an account of the part of a source that lies between two
places (`Account`): nodes in order, with nothing but spaces and parentheses
between their tokens.  Accounts of neighbouring parts join, and every rule
accounts for what it reads (`factor_accounts`).
-/

namespace Reckon

namespace Expr

/-- The position of a node.  A missing node has none. -/
def place : Expr → Int
  | .constant p _ | .supplied p _ _ | .method p _ | .reference p _ _ => p
  | .unary p _ _ | .binary p _ _ _ | .call p _ _ | .bare p => p
  | .absent => 0

/-- The nodes of a tree in order: an operator stands between its operands, a
sign and a function before theirs.  Captured producers are left out. -/
def walk : Expr → List Expr
  | .unary p op operand => .unary p op operand :: operand.walk
  | .binary p op left right => left.walk ++ .binary p op left right :: right.walk
  | .call p name argument => .call p name argument :: argument.walk
  | e => [e]

variable (text : List Char)

/-- A node stands in a text at its position: an operator as its character, a
name and a numeral as a whole run, the numeral with the value of the node. -/
def StandsIn : Expr → Prop
  | .constant p x =>
    0 ≤ p ∧ ∃ run, RunsAt Cursor.isNumeric text p.toNat run ∧ Double.ofNumeral? run = some x
  | .method p name | .reference p name _ | .call p name _ =>
    0 ≤ p ∧ RunsAt Cursor.isAlphabetic text p.toNat name.toList
  | .unary p op _ | .binary p op _ _ => 0 ≤ p ∧ ∃ c, text[p.toNat]? = some c ∧ op = c.toString
  | .supplied .. | .bare _ | .absent => False

/-- How many characters of a text the token of a node takes up. -/
def width : Expr → Nat
  | .constant p _ => ((text.drop p.toNat).takeWhile Cursor.isNumeric).length
  | .method _ name | .reference _ name _ | .call _ name _ => name.toList.length
  | .unary .. | .binary .. => 1
  | .supplied .. | .bare _ | .absent => 0

/-- A character of a text belongs to the token of a node. -/
def Covers (e : Expr) (i : Nat) : Prop :=
  e.place ≤ i ∧ i < e.place + e.width text

variable {text}

/-- A token is at least one character long. -/
theorem StandsIn.width_pos {e : Expr} (h : e.StandsIn text) : 0 < e.width text := by
  cases e with
  | supplied | bare | absent => exact h.elim
  | unary | binary => exact Nat.one_pos
  | method | reference | call => exact List.length_pos_iff.mpr h.2.nonempty
  | constant p x =>
      obtain ⟨run, hrun, -⟩ := h.2
      have hnonempty := hrun.nonempty
      rw [← hrun.run_eq] at hnonempty
      exact List.length_pos_iff.mpr hnonempty

end Expr

/-! ### Accounts of a part of a text -/

/-- The characters that belong to no node. -/
def gaps : List Char :=
  [' ', '(', ')']

/-- Nodes account for a text from one place up to another: they stand there in
order, and between their tokens are only spaces and parentheses. -/
inductive Account (text : List Char) : Nat → Nat → List Expr → Prop
  | done (i : Nat) : Account text i i []
  | gap {i j : Nat} {c : Char} {es : List Expr} (hstands : text[i]? = some c) (hc : c ∈ gaps)
      (rest : Account text (i + 1) j es) : Account text i j es
  | node {i j : Nat} {e : Expr} {es : List Expr} (hplace : e.place = i) (h : e.StandsIn text)
      (rest : Account text (i + e.width text) j es) : Account text i j (e :: es)

namespace Account

variable {text : List Char} {i j k : Nat} {es fs : List Expr}

/-- Accounts of neighbouring parts join. -/
theorem append (h : Account text i j es) (h' : Account text j k fs) :
    Account text i k (es ++ fs) := by
  induction h with
  | done => exact h'
  | gap hstands hc rest ih => exact .gap hstands hc (ih h')
  | node hplace hstands rest ih => exact .node hplace hstands (ih h')

/-- Where there are only gaps there is nothing to account for. -/
theorem of_gaps {run rest : List Char} (hdrop : text.drop i = run ++ rest)
    (hrun : ∀ c ∈ run, c ∈ gaps) : Account text i (i + run.length) [] := by
  induction run generalizing i with
  | nil => exact .done i
  | cons c run ih =>
      obtain ⟨hc, hrun⟩ := List.forall_mem_cons.mp hrun
      have hstands : text[i]? = some c := by
        rw [← List.head?_drop, hdrop]
        rfl
      have hnext : text.drop (i + 1) = run ++ rest := by
        rw [← List.drop_drop, hdrop]
        rfl
      have hlength : i + (c :: run).length = i + 1 + run.length := by
        rw [List.length_cons]
        omega
      rw [hlength]
      exact .gap hstands hc (ih hnext hrun)

/-- A single node. -/
theorem single {e : Expr} (hplace : e.place = i) (h : e.StandsIn text)
    (hj : i + e.width text = j) : Account text i j [e] :=
  .node hplace h (hj ▸ .done _)

theorem stands (h : Account text i j es) : ∀ e ∈ es, e.StandsIn text := by
  induction h with
  | done => simp
  | gap _ _ _ ih => exact ih
  | node _ hstands _ ih => exact List.forall_mem_cons.mpr ⟨hstands, ih⟩

/-- No node stands before the place where the account begins. -/
theorem le_place (h : Account text i j es) : ∀ e ∈ es, (i : Int) ≤ e.place := by
  induction h with
  | done => simp
  | gap _ _ _ ih =>
      intro e he
      have hle := ih e he
      omega
  | node hplace _ _ ih =>
      intro e he
      rcases List.mem_cons.mp he with rfl | he
      · omega
      · have hle := ih e he
        omega

/-- Every node stands behind the tokens of those before it. -/
theorem apart (h : Account text i j es) :
    es.Pairwise fun e e' => e.place + (e.width text : Int) ≤ e'.place := by
  induction h with
  | done => exact .nil
  | gap _ _ _ ih => exact ih
  | node hplace _ rest ih =>
      refine .cons (fun e' he' => ?_) ih
      have hle := rest.le_place e' he'
      omega

/-- The positions of the nodes increase. -/
theorem increasing (h : Account text i j es) : (es.map Expr.place).Pairwise (· < ·) := by
  rw [List.pairwise_map]
  refine h.apart.imp_of_mem fun he _ hle => ?_
  have hwidth := (h.stands _ he).width_pos
  omega

/-- What is no gap belongs to a node. -/
theorem covered (h : Account text i j es) {c : Char} (hik : i ≤ k) (hkj : k < j)
    (hk : text[k]? = some c) (hc : c ∉ gaps) : ∃ e ∈ es, e.Covers text k := by
  induction h with
  | done => omega
  | @gap i j d es hstands hd rest ih =>
      have hne : k ≠ i := by
        rintro rfl
        cases hk.symm.trans hstands
        exact hc hd
      exact ih (by omega) hkj
  | @node i j e es hplace hstands rest ih =>
      by_cases hinside : k < i + e.width text
      · refine ⟨e, List.mem_cons_self, ?_, ?_⟩ <;> omega
      · obtain ⟨e', he', hcovers⟩ := ih (by omega) hkj
        exact ⟨e', List.mem_cons_of_mem _ he', hcovers⟩

/-- No character belongs to two nodes. -/
theorem covers_unique (h : Account text i j es) {e e' : Expr} (he : e ∈ es) (he' : e' ∈ es)
    (hk : e.Covers text k) (hk' : e'.Covers text k) : e = e' := by
  have hapart := h.apart
  obtain ⟨hlow, hhigh⟩ := hk
  obtain ⟨hlow', hhigh'⟩ := hk'
  clear h
  induction hapart with
  | nil => cases he
  | @cons first rest hfirst _ ih =>
      rcases List.mem_cons.mp he with rfl | hrest
      · rcases List.mem_cons.mp he' with rfl | hrest'
        · rfl
        · have hle := hfirst e' hrest'
          omega
      · rcases List.mem_cons.mp he' with rfl | hrest'
        · have hle := hfirst e hrest
          omega
        · exact ih hrest hrest'

end Account

namespace Grammar

variable {c c₁ c' : Cursor}

/-! ### What the steps take up -/

/-- Between two cursors nodes account for the source. -/
abbrev Accounted (c c' : Cursor) (es : List Expr) : Prop :=
  Account c.source c.pos.toNat c'.pos.toNat es

/-- What was accounted for one after the other is accounted for as a whole. -/
theorem accounted_append (hahead : c.Ahead c₁) {es fs : List Expr} (h : Accounted c c₁ es)
    (h' : Accounted c₁ c' fs) : Accounted c c' (es ++ fs) := by
  rw [Accounted, hahead.source_eq] at h'
  exact h.append h'

theorem skip_pos (hc : c.Started) (run : List Char) :
    (c.skip run).pos.toNat = c.pos.toNat + run.length := by
  have hbegun := hc.begun
  simp only [Cursor.skip]
  omega

theorem skipSpaces_accounted (hc : c.Started) : Accounted c c.skipSpaces [] := by
  have hsplit := List.takeWhile_append_dropWhile (p := (· == ' ')) (l := c.rest)
  have hdrop : c.source.drop c.pos.toNat =
      c.rest.takeWhile (· == ' ') ++ c.rest.dropWhile (· == ' ') := by
    rw [hsplit, hc.rest_eq]
  have hgaps : ∀ x ∈ c.rest.takeWhile (· == ' '), x ∈ gaps := by
    intro x hx
    have hspace : x = ' ' := by simpa using of_mem_takeWhile x hx
    rw [hspace]
    decide
  rw [Accounted, Cursor.skipSpaces, skip_pos hc]
  exact Account.of_gaps hdrop hgaps

namespace Eaten

variable {x : Char} (h : Eaten x c c')

include h

theorem pos_succ : (c'.pos - 1).toNat + 1 = c'.pos.toNat := by
  have hpos := h.pos_pos
  omega

/-- Before a mark there are only spaces. -/
theorem spaces_accounted : Account c.source c.pos.toNat (c'.pos - 1).toNat [] := by
  have hpos : c'.pos - 1 = c.skipSpaces.pos := by rw [h.pos_eq, Int.add_sub_cancel]
  rw [hpos]
  exact skipSpaces_accounted h.started

theorem stands : c.source[(c'.pos - 1).toNat]? = some x := by
  rw [← h.passes.ahead.source_eq]
  exact h.getElem?_eq

/-- A parenthesis belongs to no node. -/
theorem parenthesis_accounted (hx : x ∈ gaps) : Accounted c c' [] := by
  refine h.spaces_accounted.append (.gap h.stands hx ?_)
  rw [h.pos_succ]
  exact .done _

/-- An operator is a node by itself. -/
theorem operator_accounted {e : Expr} (hplace : e.place = c'.pos - 1)
    (hstands : e.StandsIn c.source) (hwidth : e.width c.source = 1) : Accounted c c' [e] := by
  have hpos := h.pos_pos
  have hnode : Account c.source (c'.pos - 1).toNat c'.pos.toNat [e] :=
    .single (by omega) hstands (by rw [hwidth, h.pos_succ])
  exact h.spaces_accounted.append hnode

theorem unary_accounted (operand : Expr) :
    Accounted c c' [.unary (c'.pos - 1) x.toString operand] := by
  have hpos := h.pos_pos
  exact h.operator_accounted rfl ⟨by omega, x, h.stands, rfl⟩ rfl

theorem binary_accounted (left right : Expr) :
    Accounted c c' [.binary (c'.pos - 1) x.toString left right] := by
  have hpos := h.pos_pos
  exact h.operator_accounted rfl ⟨by omega, x, h.stands, rfl⟩ rfl

end Eaten

/-- Where no operator was found there were only spaces. -/
theorem eatAny_none_accounted {signs : List Char} (hc : c.Started)
    (hok : eatAny signs c = .ok none c') : Accounted c c' [] := by
  induction signs generalizing c with
  | nil =>
      cases hok
      exact .done _
  | cons y signs ih =>
      obtain ⟨found, c₁, heat, hok⟩ := bind_eq_ok.mp hok
      cases found with
      | true => cases hok
      | false =>
          obtain ⟨-, rfl⟩ := eat_eq_false heat
          have hahead := Cursor.Ahead.ahead_skipSpaces hc
          exact accounted_append hahead (skipSpaces_accounted hc) (ih hahead.started hok)

/-! ### What the rules take up -/

/-- The nodes of what the rule returns account for what it has read. -/
def Accounts (rule : Rule Expr) : Prop :=
  ∀ ⦃c c' : Cursor⦄ ⦃tree : Expr⦄, c.Entry → rule c = .ok tree c' → Accounted c c' tree.walk

/-- A number accounts for its run. -/
theorem number_accounts : Accounts number := by
  intro c c' tree hc hok
  rw [number_eq] at hok
  cases hvalue : Double.ofNumeral? (c.scan Cursor.isNumeric).1 with
  | none =>
      rw [hvalue] at hok
      cases hok
  | some x =>
      rw [hvalue] at hok
      cases hok
      have hrun : (c.source.drop c.pos.toNat).takeWhile Cursor.isNumeric =
          (c.scan Cursor.isNumeric).1 := by
        rw [← hc.started.rest_eq]
        rfl
      have hnonempty : (c.scan Cursor.isNumeric).1 ≠ [] := by
        intro hnil
        rw [hnil] at hvalue
        cases hvalue
      have hstands : (Expr.constant c.pos x).StandsIn c.source :=
        ⟨hc.started.begun, _, ⟨hrun, hnonempty, fun y hy => (hc.apart y hy).1⟩, hvalue⟩
      refine .single (Int.toNat_of_nonneg hc.started.begun).symm hstands ?_
      rw [Expr.width, hrun]
      exact (skip_pos hc.started _).symm

/-- The node of the name at the cursor takes up that name. -/
theorem word_accounted (hc : c.Entry) (hname : IsName c.word) {e : Expr}
    (hplace : e.place = c.pos) (hwidth : e.width c.source = c.word.length)
    (hstands : RunsAt Cursor.isAlphabetic c.source c.pos.toNat c.word → e.StandsIn c.source) :
    Accounted c (c.scan Cursor.isAlphabetic).2 [e] := by
  refine .single ?_ (hstands (hc.runsAt_word hname)) ?_
  · rw [hplace, Int.toNat_of_nonneg hc.started.begun]
  · rw [hwidth]
    exact (skip_pos hc.started _).symm

section Rules

variable (scope : Scope)

theorem reference_accounts (hc : c.Entry) (hname : IsName c.word) {tree : Expr}
    (heat : eat '(' (c.scan Cursor.isAlphabetic).2 = .ok false c₁)
    (hok : reference scope (String.ofList c.word) c.pos c₁ = .ok tree c') :
    Accounted c c' tree.walk := by
  have hscan := Cursor.Ahead.ahead_scan hc.started Cursor.isAlphabetic
  obtain ⟨-, rfl⟩ := eat_eq_false heat
  unfold reference at hok
  cases hfind : scope.find? (String.ofList c.word) with
  | none =>
      rw [hfind] at hok
      cases hok
  | some producer =>
      rw [hfind] at hok
      cases hok
      have hword : Accounted c (c.scan Cursor.isAlphabetic).2
          [.reference c.pos (String.ofList c.word) producer] := by
        refine word_accounted hc hname rfl ?_ fun hrun => ⟨hc.started.begun, ?_⟩
        · rw [Expr.width, String.toList_ofList]
        · rwa [String.toList_ofList]
      exact accounted_append hscan hword (skipSpaces_accounted hscan.started)

/-- A called name is accounted for with the parenthesis behind it. -/
theorem Called.accounted (h : Called c c₁) {e : Expr} (hplace : e.place = c.pos)
    (hwidth : e.width c.source = c.word.length)
    (hstands : RunsAt Cursor.isAlphabetic c.source c.pos.toNat c.word → e.StandsIn c.source) :
    Accounted c c₁ [e] := by
  have hscan := Cursor.Ahead.ahead_scan h.entry.started Cursor.isAlphabetic
  have hword := word_accounted h.entry h.name hplace hwidth hstands
  exact accounted_append hscan hword (h.opens.parenthesis_accounted (by decide))

/-- A method accounts for its name; the parentheses need no node. -/
theorem method_accounts {c₂ : Cursor} (h : Called c c₁) (hclose : Eaten ')' c₁ c₂) {tree : Expr}
    (hok : method (String.ofList c.word) c.pos c₂ = .ok tree c') : Accounted c c' tree.walk := by
  unfold method at hok
  split at hok
  · cases hok
    have hcalled : Accounted c c₁ [.method c.pos (String.ofList c.word)] := by
      refine h.accounted rfl ?_ fun hrun => ⟨h.entry.started.begun, ?_⟩
      · rw [Expr.width, String.toList_ofList]
      · rwa [String.toList_ofList]
    exact accounted_append h.passes.ahead hcalled (hclose.parenthesis_accounted (by decide))
  · cases hok

section Expression

variable {expression : Rule Expr} (hmoves : Moves expression) (hexp : Accounts expression)

include hmoves hexp

/-- An expression in parentheses, of which the opening one was eaten. -/
theorem enclosed_accounts {c₂ : Cursor} (hc : c.Entry) {inner : Expr}
    (hinner : expression c = .ok inner c₁) (hclose : eat ')' c₁ = .ok true c₂) :
    Accounted c c₂ inner.walk := by
  have hmoved := hmoves.ok hc.started hinner
  have heaten : Eaten ')' c₁ c₂ := ⟨hmoved.started, hmoved.within hc.inside, by decide, hclose⟩
  have hall := accounted_append hmoved (hexp hc hinner) (heaten.parenthesis_accounted (by decide))
  rwa [List.append_nil] at hall

/-- A call accounts for its name, and its argument for the rest. -/
theorem call_accounts {c₂ : Cursor} (h : Called c c₁) (heat : eat ')' c₁ = .ok false c₂)
    {tree : Expr} (hok : call expression (String.ofList c.word) c.pos c₂ = .ok tree c') :
    Accounted c c' tree.walk := by
  obtain ⟨-, rfl⟩ := eat_eq_false heat
  have hentry := h.opens.entry
  have hskip := Cursor.Ahead.ahead_skipSpaces hentry.started
  obtain ⟨argument, c₃, hargument, hok⟩ := bind_eq_ok.mp hok
  obtain ⟨closed, c₄, hclose, hok⟩ := bind_eq_ok.mp hok
  cases closed with
  | false => cases hok
  | true =>
      simp only [if_true] at hok
      split at hok
      · cases hok
        have hcalled : Accounted c c₁ [.call c.pos (String.ofList c.word) argument] := by
          refine h.accounted rfl ?_ fun hrun => ⟨h.entry.started.begun, ?_⟩
          · rw [Expr.width, String.toList_ofList]
          · rwa [String.toList_ofList]
        have hinner := enclosed_accounts hmoves hexp hentry.skipSpaces hargument hclose
        have hbehind := accounted_append hskip (skipSpaces_accounted hentry.started) hinner
        exact accounted_append h.passes.ahead hcalled hbehind
      · cases hok

/-- What begins with a name is accounted for by what it is. -/
theorem identifier_accounts (hc : c.Entry) (hname : IsName c.word) {tree : Expr}
    (hok : identifier scope expression c = .ok tree c') : Accounted c c' tree.walk := by
  have hscan := Cursor.Ahead.ahead_scan hc.started Cursor.isAlphabetic
  rw [identifier_eq] at hok
  obtain ⟨called, c₁, heat, hok⟩ := bind_eq_ok.mp hok
  cases called with
  | false => exact reference_accounts scope hc hname heat hok
  | true =>
      have hcalled : Called c c₁ :=
        ⟨hc, hname, hscan.started, hscan.within hc.inside, by decide, heat⟩
      obtain ⟨closed, c₂, hclose, hok⟩ := bind_eq_ok.mp hok
      cases closed with
      | true =>
          have hentry := hcalled.opens.entry
          exact method_accounts hcalled ⟨hentry.started, hentry.inside, by decide, hclose⟩ hok
      | false => exact call_accounts hmoves hexp hcalled hclose hok

/-- A base is accounted for by what stands in it. -/
theorem base_accounts : Accounts (base scope expression) := by
  intro c c' tree hc hok
  obtain ⟨opened, c₁, heat, hok⟩ := bind_eq_ok.mp hok
  cases opened with
  | true =>
      have hopen : Eaten '(' c c₁ := ⟨hc.started, hc.inside, by decide, heat⟩
      obtain ⟨place, c₂, hplace, hok⟩ := bind_eq_ok.mp hok
      cases hplace
      obtain ⟨inner, c₃, hinner, hok⟩ := bind_eq_ok.mp hok
      obtain ⟨closed, c₄, hclose, hok⟩ := bind_eq_ok.mp hok
      cases closed with
      | false => cases hok
      | true =>
          cases hok
          exact accounted_append hopen.passes.ahead (hopen.parenthesis_accounted (by decide))
            (enclosed_accounts hmoves hexp hopen.entry hinner hclose)
  | false =>
      obtain ⟨-, rfl⟩ := eat_eq_false heat
      have hskip := Cursor.Ahead.ahead_skipSpaces hc.started
      have hspaces := skipSpaces_accounted hc.started
      obtain ⟨found, c₂, hcurrent, hok⟩ := bind_eq_ok.mp hok
      cases hcurrent
      cases hhead : c.skipSpaces.rest with
      | nil =>
          simp only [Cursor.current, hhead, List.head?_nil] at hok
          cases hok
      | cons d rest =>
          simp only [Cursor.current, hhead, List.head?_cons] at hok
          split at hok
          · exact accounted_append hskip hspaces (number_accounts hc.skipSpaces hok)
          · split at hok
            · next halpha =>
                have hname : IsName c.skipSpaces.word :=
                  ⟨by simp [Cursor.word, hhead, halpha], of_mem_takeWhile⟩
                exact accounted_append hskip hspaces
                  (identifier_accounts scope hmoves hexp hc.skipSpaces hname hok)
            · cases hok

end Expression

end Rules

section Operations

variable {operand : Rule Expr} (hmoves : Moves operand) (hop : Accounts operand)
  {signs : List Char} (hsigns : ∀ x ∈ signs, x ∈ marks)

include hmoves hop hsigns

/-- A chain adds the nodes behind those of the tree that it began with. -/
theorem chain_accounts (left : List Char) : ∀ {before tree : Expr} {c c' : Cursor}, c.Started →
    c.pos ≤ c.source.length → chain operand signs left before c = .ok tree c' →
    ∃ es, tree.walk = before.walk ++ es ∧ Accounted c c' es := by
  induction left with
  | nil =>
      intro before tree c c' hc hinside hok
      cases hok
      exact ⟨[], (List.append_nil _).symm, .done _⟩
  | cons _ left ih =>
      intro before tree c c' hc hinside hok
      obtain ⟨found, c₁, heat, hok⟩ := bind_eq_ok.mp hok
      cases found with
      | none =>
          cases hok
          exact ⟨[], (List.append_nil _).symm, eatAny_none_accounted hc heat⟩
      | some sign =>
          obtain ⟨-, heaten⟩ := eatAny_some_eaten hsigns hc hinside heat
          obtain ⟨place, c₂, hplace, hok⟩ := bind_eq_ok.mp hok
          cases hplace
          obtain ⟨right, c₃, hright, hok⟩ := bind_eq_ok.mp hok
          have hmoved := hmoves.ok heaten.entry.started hright
          have hahead := heaten.passes.ahead.trans hmoved
          obtain ⟨es, hwalk, hrest⟩ := ih hmoved.started (hahead.within hinside) hok
          have hturn := accounted_append heaten.passes.ahead
            (heaten.binary_accounted before right) (hop heaten.entry hright)
          refine ⟨_, ?_, accounted_append hahead hturn hrest⟩
          rw [hwalk]
          simp [Expr.walk]

/-- Operators stand between the stretches of their operands. -/
theorem operations_accounts : Accounts (operations operand signs) := by
  intro c c' tree hc hok
  obtain ⟨first, c₁, hfirst, hok⟩ := bind_eq_ok.mp hok
  obtain ⟨c₂, c₃, hget, hok⟩ := bind_eq_ok.mp hok
  cases hget
  have hmoved := hmoves.ok hc.started hfirst
  obtain ⟨es, hwalk, hrest⟩ :=
    chain_accounts hmoves hop hsigns _ hmoved.started (hmoved.within hc.inside) hok
  rw [hwalk]
  exact accounted_append hmoved (hop hc hfirst) hrest

end Operations

/-- An expression is accounted for if its factors are. -/
theorem expression_accounts {factor : Rule Expr} (hmoves : Moves factor)
    (hfactor : Accounts factor) : Accounts (expression factor) :=
  operations_accounts (operations_moves hmoves _)
    (operations_accounts hmoves hfactor (signs_subset_marks .product)) (signs_subset_marks .sum)

/-- **A factor accounts for what it reads.** -/
theorem factor_accounts (scope : Scope) (limit : Int) (n : Nat) :
    Accounts (factor scope limit n) := by
  induction n with
  | zero =>
      intro c c' tree hc hok
      cases hok
  | succ n ih =>
      intro c c' tree hc hok
      have hfactor := factor_moves scope limit n
      have hmoves := expression_moves scope limit n
      obtain ⟨found, c₁, heat, hok⟩ := bind_eq_ok.mp hok
      cases found with
      | some sign =>
          obtain ⟨-, heaten⟩ :=
            eatAny_some_eaten (signs_subset_marks .sum) hc.started hc.inside heat
          obtain ⟨place, c₂, hplace, hok⟩ := bind_eq_ok.mp hok
          cases hplace
          obtain ⟨operand, c₃, hoperand, hok⟩ := bind_eq_ok.mp hok
          cases hok
          exact accounted_append heaten.passes.ahead (heaten.unary_accounted operand)
            (ih heaten.entry hoperand)
      | none =>
          have hentry := eatAny_none_entry hc heat
          have hskip := (eatAny_moves _).ok hc.started heat
          obtain ⟨bottom, c₂, hbottom, hok⟩ := bind_eq_ok.mp hok
          have hmoved := (moves_stepwise.base scope hmoves).ok hentry.started hbottom
          have hahead := hskip.trans hmoved
          have hbase := base_accounts scope hmoves (expression_accounts hfactor ih)
          have hread := accounted_append hskip (eatAny_none_accounted hc.started heat)
            (hbase hentry hbottom)
          obtain ⟨raised, c₃, heat', hok⟩ := bind_eq_ok.mp hok
          cases raised with
          | true =>
              have heaten : Eaten '^' c₂ c₃ :=
                ⟨hmoved.started, hahead.within hc.inside, by decide, heat'⟩
              obtain ⟨place, c₄, hplace, hok⟩ := bind_eq_ok.mp hok
              cases hplace
              obtain ⟨exponent, c₅, hexponent, hok⟩ := bind_eq_ok.mp hok
              cases hok
              have hbehind := accounted_append heaten.passes.ahead
                (heaten.binary_accounted bottom exponent) (ih heaten.entry hexponent)
              exact accounted_append hahead hread hbehind
          | false =>
              cases hok
              obtain ⟨-, rfl⟩ := eat_eq_false heat'
              have hall := accounted_append hahead hread (skipSpaces_accounted hmoved.started)
              simpa using hall

/-! ### Whole sources -/

/-- The nodes of a tree account for its whole source. -/
theorem accounted_of_parse {scope : Scope} {limit : Int} {source : String} {tree : Expr}
    (h : parse scope limit source = .ok tree) :
    Account source.toList 0 source.toList.length tree.walk := by
  have hentry := entry_advance_ofSource source
  have hmoves := expression_moves scope limit (allowance limit 0)
  have hexp := expression_accounts (factor_moves scope limit (allowance limit 0))
    (factor_accounts scope limit _)
  unfold parse at h
  split at h
  · next tree' c' hwhole =>
      cases h
      obtain ⟨tree', c₁, hread, hwhole⟩ := bind_eq_ok.mp hwhole
      obtain ⟨c₂, c₃, hget, hwhole⟩ := bind_eq_ok.mp hwhole
      cases hget
      have hmoved := hmoves.ok hentry.started hread
      have hall := hexp hentry hread
      by_cases hend : c₁.atEnd
      · simp only [hend, if_true] at hwhole
        have hpos : c₁.pos.toNat = source.toList.length := by
          have hsource : c₁.source = source.toList := hmoved.source_eq
          have hwithin := hmoved.within hentry.inside
          simp only [Cursor.atEnd, decide_eq_true_eq] at hend
          rw [hsource] at hend hwithin
          omega
        cases hwhole
        rw [Accounted, hpos] at hall
        exact hall
      · simp only [hend] at hwhole
        cases hwhole
  · cases h

end Grammar

open Grammar in
/-- **A tree accounts for its whole source.**  Every node stands at its
position, the positions increase along the walk, and every character but spaces
and parentheses belongs to the token of exactly one node. -/
theorem parse_accounts {scope : Scope} {limit : Int} {source : String} {tree : Expr}
    (h : parse scope limit source = .ok tree) :
    (∀ node ∈ tree.walk, node.StandsIn source.toList) ∧
    (tree.walk.map Expr.place).Pairwise (· < ·) ∧
    ∀ (i : Nat) (c : Char), source.toList[i]? = some c → c ∉ [' ', '(', ')'] →
      ∃! node, node ∈ tree.walk ∧ node.Covers source.toList i := by
  have haccount := accounted_of_parse h
  refine ⟨haccount.stands, haccount.increasing, fun i c hi hc => ?_⟩
  have hinside : i < source.toList.length := (List.getElem?_eq_some_iff.mp hi).1
  obtain ⟨node, hnode, hcovers⟩ := haccount.covered (Nat.zero_le i) hinside hi hc
  refine ⟨node, ⟨hnode, hcovers⟩, ?_⟩
  rintro other ⟨hother, hcovers'⟩
  exact haccount.covers_unique hother hnode hcovers' hcovers

/-- A signed product with a group, a space and a call in it. -/
theorem parse_accounts_product : ∃ tree, parse .seeded 100 "-2*( pi+abs(3.))" = .ok tree ∧
    tree.walk.map Expr.place = [0, 1, 2, 5, 7, 8, 12] ∧
    (∀ node ∈ tree.walk, node.StandsIn "-2*( pi+abs(3.))".toList) ∧
    ∃! node, node ∈ tree.walk ∧ node.Covers "-2*( pi+abs(3.))".toList 10 := by
  have hread : parse .seeded 100 "-2*( pi+abs(3.))" = .ok
      (.binary 2 "*" (.unary 0 "-" (.constant 1 2))
        (.binary 7 "+" (.reference 5 "pi" (.constant 0 pi)) (.call 8 "abs" (.constant 12 3)))) := by
    decide +kernel
  obtain ⟨hstands, -, hcovered⟩ := parse_accounts hread
  exact ⟨_, hread, rfl, hstands, hcovered 10 's' (by decide) (by decide)⟩

end Reckon
