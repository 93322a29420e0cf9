import Reckon.Proofs.Spelling
import Reckon.Scope
import Reckon.Vocabulary
/-!
# Phrases: derivations of the grammar

A phrase is a derivation from one rule of the grammar, with the repetitions of
the two left-associative rules written out link by link.  It has the tokens it
consists of, the number of factors it nests, the names that must mean
something, and a tree.

Which rule a token can go on with is decided by one token, so a list of tokens
has at most one derivation (`Phrase.unique`): the grammar is unambiguous.
-/

namespace Reckon

/-- The two ranks of operations that group to the left. -/
inductive Rank where
  | sum | product
deriving DecidableEq, Repr

/-- The operators of a rank. -/
def Rank.signs : Rank → List Char
  | .sum => ['+', '-']
  | .product => ['*', '/']

/-- The parts of which a sentence is made.  The chain of sums is an
expression, that of products a term; the links of a chain are its operators
and operands behind the first operand. -/
inductive Part where
  | chain (r : Rank)
  | links (r : Rank)
  | factor
  | base
deriving DecidableEq, Repr

/-- The operands of a rank. -/
def Rank.operand : Rank → Part
  | .sum => .chain .product
  | .product => .factor

/-- No operand is made of links. -/
theorem Rank.operand_ne_links (r r' : Rank) : r.operand ≠ .links r' := by
  cases r <;> simp [operand]

/-- A whole expression. -/
abbrev Part.expression : Part :=
  .chain .sum

/-- A phrase of the grammar. -/
inductive Phrase : Part → Type
  /-- A first operand and what is linked to it. -/
  | chain {r : Rank} (first : Phrase r.operand) (rest : Phrase (.links r)) : Phrase (.chain r)
  | stop {r : Rank} : Phrase (.links r)
  | link {r : Rank} (sign : Char) (hsign : sign ∈ r.signs) (operand : Phrase r.operand)
      (rest : Phrase (.links r)) : Phrase (.links r)
  | signed (sign : Char) (hsign : sign ∈ Rank.sum.signs) (operand : Phrase .factor) :
      Phrase .factor
  | plain (bottom : Phrase .base) : Phrase .factor
  | power (bottom : Phrase .base) (exponent : Phrase .factor) : Phrase .factor
  | group (inner : Phrase .expression) : Phrase .base
  | number (text : List Char) (htext : IsNumeral text) : Phrase .base
  | reference (name : List Char) (hname : IsName name) : Phrase .base
  | method (name : List Char) (hname : IsName name) : Phrase .base
  | call (name : List Char) (hname : IsName name) (argument : Phrase .expression) : Phrase .base

namespace Phrase

/-- The tokens of a phrase. -/
def tokens : {part : Part} → Phrase part → List Token
  | _, .chain first rest => first.tokens ++ rest.tokens
  | _, .stop => []
  | _, .link sign _ operand rest => .mark sign :: (operand.tokens ++ rest.tokens)
  | _, .signed sign _ operand => .mark sign :: operand.tokens
  | _, .plain bottom => bottom.tokens
  | _, .power bottom exponent => bottom.tokens ++ .mark '^' :: exponent.tokens
  | _, .group inner => .mark '(' :: (inner.tokens ++ [.mark ')'])
  | _, .number text _ => [.numeral text]
  | _, .reference name _ => [.name name]
  | _, .method name _ => [.name name, .mark '(', .mark ')']
  | _, .call name _ argument => .name name :: .mark '(' :: (argument.tokens ++ [.mark ')'])

/-- The greatest number of factors that lie within each other. -/
def nesting : {part : Part} → Phrase part → Nat
  | _, .chain first rest => max first.nesting rest.nesting
  | _, .stop => 0
  | _, .link _ _ operand rest => max operand.nesting rest.nesting
  | _, .signed _ _ operand => operand.nesting + 1
  | _, .plain bottom => bottom.nesting + 1
  | _, .power bottom exponent => max bottom.nesting exponent.nesting + 1
  | _, .group inner => inner.nesting
  | _, .number .. | _, .reference .. | _, .method .. => 0
  | _, .call _ _ argument => argument.nesting

/-- An expression holds a factor. -/
theorem nesting_pos (p : Phrase .expression) : 0 < p.nesting := by
  cases p with
  | chain first rest =>
      cases first with
      | chain factor factors =>
          have hfactor : 0 < factor.nesting := by cases factor <;> exact Nat.succ_pos _
          simp only [nesting]
          omega

variable (scope : Scope)

/-- Every name means something: a bound variable, a method or a function, as it
is used. -/
def Resolved : {part : Part} → Phrase part → Prop
  | _, .chain first rest => first.Resolved ∧ rest.Resolved
  | _, .stop => True
  | _, .link _ _ operand rest => operand.Resolved ∧ rest.Resolved
  | _, .signed _ _ operand => operand.Resolved
  | _, .plain bottom => bottom.Resolved
  | _, .power bottom exponent => bottom.Resolved ∧ exponent.Resolved
  | _, .group inner => inner.Resolved
  | _, .number .. => True
  | _, .reference name _ => (scope.find? (String.ofList name)).isSome
  | _, .method name _ => String.ofList name ∈ Method.names
  | _, .call name _ argument =>
    (Function.ofName? (String.ofList name)).isSome ∧ argument.Resolved

/-- The tree of a phrase behind a tree.  Links go on from that tree and group to
the left; no other phrase looks at it.  Positions are left out: each is 0. -/
def treeBehind : {part : Part} → Phrase part → Expr → Expr
  | _, .chain first rest, _ => rest.treeBehind (first.treeBehind .absent)
  | _, .stop, left => left
  | _, .link sign _ operand rest, left =>
    rest.treeBehind (.binary 0 sign.toString left (operand.treeBehind .absent))
  | _, .signed sign _ operand, _ => .unary 0 sign.toString (operand.treeBehind .absent)
  | _, .plain bottom, _ => bottom.treeBehind .absent
  | _, .power bottom exponent, _ =>
    .binary 0 "^" (bottom.treeBehind .absent) (exponent.treeBehind .absent)
  | _, .group inner, _ => inner.treeBehind .absent
  | _, .number _ htext, _ => .constant 0 htext.value
  | _, .reference name _, _ =>
    .reference 0 (String.ofList name) ((scope.find? (String.ofList name)).getD .absent)
  | _, .method name _, _ => .method 0 (String.ofList name)
  | _, .call name _ argument, _ => .call 0 (String.ofList name) (argument.treeBehind .absent)

/-- The tree of a phrase. -/
def tree {part : Part} (p : Phrase part) : Expr :=
  p.treeBehind scope .absent

end Phrase

/-! ### What may follow a phrase -/

/-- The marks with which a chain of a rank could go on. -/
def Rank.extenders : Rank → List Char
  | .product => ['*', '/', '^', '(']
  | .sum => ['+', '-', '*', '/', '^', '(']

/-- The marks with which a part could go on.  A name could go on as a call. -/
def Part.extenders : Part → List Char
  | .base => ['(']
  | .factor => ['^', '(']
  | .chain r | .links r => r.extenders

/-- A part cannot go on with the tokens that follow it. -/
def Part.Stops (part : Part) (ts : List Token) : Prop :=
  ∀ c ∈ part.extenders, ts.head? ≠ some (.mark c)

namespace Part.Stops

/-- Every part can end at the end. -/
theorem nil (part : Part) : part.Stops [] := by
  intro c hc
  simp

/-- Nothing goes on behind a closing parenthesis. -/
theorem close (part : Part) (ts : List Token) : part.Stops (.mark ')' :: ts) := by
  intro c hc heq
  obtain rfl : ')' = c := by simpa using heq
  rcases part with (_ | _) | (_ | _) | _ | _ <;> simp [Part.extenders, Rank.extenders] at hc

/-- A part that fewer signs extend stops wherever one does that more extend. -/
theorem mono {part part' : Part} {ts : List Token} (h : part.Stops ts)
    (hsub : ∀ c ∈ part'.extenders, c ∈ part.extenders) : part'.Stops ts :=
  fun c hc => h c (hsub c hc)

/-- Where links end their last operand ends. -/
theorem operand {r : Rank} {ts : List Token} (h : (Part.links r).Stops ts) :
    r.operand.Stops ts := by
  apply h.mono
  cases r <;> simp [Rank.operand, Part.extenders, Rank.extenders]

/-- Where a factor ends its base does. -/
theorem base {ts : List Token} (h : Part.factor.Stops ts) : Part.base.Stops ts :=
  h.mono (by simp [Part.extenders])

/-- An operand cannot go on with an operator of its rank. -/
theorem sign {r : Rank} {c : Char} (hc : c ∈ r.signs) (ts : List Token) :
    r.operand.Stops (.mark c :: ts) := by
  intro d hd heq
  obtain rfl : c = d := by simpa using heq
  cases r <;> simp [Rank.operand, Part.extenders, Rank.extenders, Rank.signs] at hc hd <;> grind

/-- Links go on with every operator of their rank. -/
theorem ne_sign {r : Rank} {ts : List Token} (h : (Part.links r).Stops ts) :
    ∀ c ∈ r.signs, ts.head? ≠ some (.mark c) := by
  intro c hc
  refine h c ?_
  cases r <;> simp [Part.extenders, Rank.extenders, Rank.signs] at hc ⊢ <;> grind

/-- A base ends in front of a caret. -/
theorem caret (ts : List Token) : Part.base.Stops (.mark '^' :: ts) := by
  simp [Part.Stops, Part.extenders]

/-- Where links stop, an operand in front of them stops too. -/
theorem links {r : Rank} {ts : List Token} (h : (Part.links r).Stops ts)
    (rest : Phrase (.links r)) : r.operand.Stops (rest.tokens ++ ts) := by
  cases rest with
  | stop => exact h.operand
  | link c hc operand rest => exact sign hc _

end Part.Stops

/-! ### Unambiguity -/

namespace Phrase

attribute [local simp] tokens

/-- A base begins with a numeral, a name or an opening parenthesis. -/
theorem base_head (p : Phrase .base) :
    ∃ t ts, p.tokens = t :: ts ∧ ∀ c, t = .mark c → c = '(' := by
  cases p with
  | group inner => exact ⟨_, _, rfl, fun c hc => by simpa using hc.symm⟩
  | number | reference | method | call => exact ⟨_, _, rfl, fun c hc => by simp at hc⟩

/-- A base begins with no sign. -/
theorem base_ne_sign (p : Phrase .base) (ts : List Token) :
    ∀ c ∈ Rank.sum.signs, (p.tokens ++ ts).head? ≠ some (.mark c) := by
  intro c hc heq
  obtain ⟨t, rest, htokens, hmark⟩ := p.base_head
  rw [htokens] at heq
  obtain rfl := hmark c (Option.some.inj heq)
  exact absurd hc (by decide)

/-- Every part but links is something, and does not begin with a closing
parenthesis. -/
theorem opening {part : Part} (p : Phrase part) (hpart : ∀ r, part ≠ .links r) :
    ∃ t ts, p.tokens = t :: ts ∧ t ≠ .mark ')' := by
  induction p with
  | @chain r first rest ihf _ =>
      obtain ⟨t, ts, htokens, hne⟩ := ihf r.operand_ne_links
      exact ⟨t, ts ++ rest.tokens, by simp [htokens], hne⟩
  | stop | link => exact absurd rfl (hpart _)
  | signed sign hsign operand _ =>
      refine ⟨_, _, rfl, ?_⟩
      rintro ⟨rfl⟩
      exact absurd hsign (by decide)
  | plain bottom ih => exact ih (by simp)
  | power bottom exponent ihb _ =>
      obtain ⟨t, ts, htokens, hne⟩ := ihb (by simp)
      exact ⟨t, ts ++ .mark '^' :: exponent.tokens, by simp [htokens], hne⟩
  | group | number | reference | method | call => exact ⟨_, _, rfl, by simp⟩

/-- No expression begins with a closing parenthesis. -/
theorem head?_ne_close (p : Phrase .expression) (ts : List Token) :
    (p.tokens ++ ts).head? ≠ some (.mark ')') := by
  intro heq
  obtain ⟨t, rest, htokens, hne⟩ := p.opening (by simp)
  rw [htokens] at heq
  exact hne (Option.some.inj heq)

/-- No other phrase is at the head of the same tokens, as long as neither could
go on. -/
def Determined {part : Part} (p : Phrase part) : Prop :=
  ∀ (q : Phrase part) {ts us : List Token}, p.tokens ++ ts = q.tokens ++ us →
    part.Stops ts → part.Stops us → p = q ∧ ts = us

/-- A chain is found again by its first operand and its links. -/
theorem determined_chain {r : Rank} {first : Phrase r.operand} {rest : Phrase (.links r)}
    (hfirst : first.Determined) (hrest : rest.Determined) : (chain first rest).Determined := by
  intro q ts us heq hts hus
  cases q with
  | chain first' rest' =>
      simp only [tokens, List.append_assoc] at heq
      obtain ⟨rfl, hmore⟩ := hfirst first' heq (hts.links rest) (hus.links rest')
      obtain ⟨rfl, rfl⟩ := hrest rest' hmore hts hus
      exact ⟨rfl, rfl⟩

/-- The end of a chain is found where no sign of its rank stands. -/
theorem determined_stop (r : Rank) : (stop (r := r)).Determined := by
  intro q ts us heq hts hus
  cases q with
  | stop => exact ⟨rfl, heq⟩
  | link sign hsign operand rest =>
      exact absurd (congrArg List.head? heq) (hts.ne_sign _ hsign)

/-- A link is found again by its sign, its operand and the links behind it. -/
theorem determined_link {r : Rank} {sign : Char} (hsign : sign ∈ r.signs)
    {operand : Phrase r.operand} {rest : Phrase (.links r)} (hoperand : operand.Determined)
    (hrest : rest.Determined) : (link sign hsign operand rest).Determined := by
  intro q ts us heq hts hus
  cases q with
  | stop => exact absurd (congrArg List.head? heq.symm) (hus.ne_sign _ hsign)
  | link sign' hsign' operand' rest' =>
      simp only [tokens, List.cons_append, List.append_assoc, List.cons.injEq,
        Token.mark.injEq] at heq
      obtain ⟨rfl, heq⟩ := heq
      obtain ⟨rfl, hmore⟩ := hoperand operand' heq (Part.Stops.links hts rest)
        (Part.Stops.links hus rest')
      obtain ⟨rfl, rfl⟩ := hrest rest' hmore hts hus
      exact ⟨rfl, rfl⟩

/-- A factor with a sign is found again by it. -/
theorem determined_signed {sign : Char} (hsign : sign ∈ Rank.sum.signs)
    {operand : Phrase .factor} (h : operand.Determined) :
    (signed sign hsign operand).Determined := by
  intro q ts us heq hts hus
  cases q with
  | signed sign' hsign' operand' =>
      simp only [tokens, List.cons_append, List.cons.injEq, Token.mark.injEq] at heq
      obtain ⟨rfl, heq⟩ := heq
      obtain ⟨rfl, rfl⟩ := h operand' heq hts hus
      exact ⟨rfl, rfl⟩
  | plain bottom => exact absurd (congrArg List.head? heq.symm) (bottom.base_ne_sign _ _ hsign)
  | power bottom exponent =>
      simp only [tokens, List.append_assoc] at heq
      exact absurd (congrArg List.head? heq.symm) (bottom.base_ne_sign _ _ hsign)

/-- A base alone is found again where no caret stands behind it. -/
theorem determined_plain {bottom : Phrase .base} (h : bottom.Determined) :
    (plain bottom).Determined := by
  intro q ts us heq hts hus
  cases q with
  | signed sign hsign operand =>
      exact absurd (congrArg List.head? heq) (bottom.base_ne_sign _ _ hsign)
  | plain bottom' =>
      obtain ⟨rfl, rfl⟩ := h bottom' heq hts.base hus.base
      exact ⟨rfl, rfl⟩
  | power bottom' exponent =>
      simp only [tokens, List.append_assoc] at heq
      obtain ⟨-, rfl⟩ := h bottom' heq hts.base (Part.Stops.caret _)
      exact absurd rfl (hts '^' (by decide))

/-- A power is found again by its caret. -/
theorem determined_power {bottom : Phrase .base} {exponent : Phrase .factor}
    (hbottom : bottom.Determined) (hexponent : exponent.Determined) :
    (power bottom exponent).Determined := by
  intro q ts us heq hts hus
  cases q with
  | signed sign hsign operand =>
      simp only [tokens, List.append_assoc] at heq
      exact absurd (congrArg List.head? heq) (bottom.base_ne_sign _ _ hsign)
  | plain bottom' =>
      simp only [tokens, List.append_assoc] at heq
      obtain ⟨-, rfl⟩ := hbottom bottom' heq (Part.Stops.caret _) hus.base
      exact absurd rfl (hus '^' (by decide))
  | power bottom' exponent' =>
      simp only [tokens, List.append_assoc] at heq
      obtain ⟨rfl, hrest⟩ := hbottom bottom' heq (Part.Stops.caret _) (Part.Stops.caret _)
      obtain ⟨rfl, rfl⟩ := hexponent exponent' (List.cons.inj hrest).2 hts hus
      exact ⟨rfl, rfl⟩

/-- A group is found again by its parentheses. -/
theorem determined_group {inner : Phrase .expression} (h : inner.Determined) :
    (group inner).Determined := by
  intro q ts us heq hts hus
  cases q with
  | group inner' =>
      simp only [tokens, List.cons_append, List.append_assoc, List.cons.injEq,
        true_and] at heq
      obtain ⟨rfl, hrest⟩ := h inner' heq (Part.Stops.close _ _) (Part.Stops.close _ _)
      exact ⟨rfl, (List.cons.inj hrest).2⟩
  | number | reference | method | call => simp at heq

/-- A number is found again by its numeral. -/
theorem determined_number {text : List Char} (htext : IsNumeral text) :
    (number text htext).Determined := by
  intro q ts us heq hts hus
  cases q with
  | number text' htext' =>
      simp only [tokens, List.cons_append, List.nil_append, List.cons.injEq,
        Token.numeral.injEq] at heq
      obtain ⟨rfl, rfl⟩ := heq
      exact ⟨rfl, rfl⟩
  | group | reference | method | call => simp at heq

/-- A variable is found again by its name and no parenthesis behind it. -/
theorem determined_reference {name : List Char} (hname : IsName name) :
    (reference name hname).Determined := by
  intro q ts us heq hts hus
  cases q with
  | reference name' hname' =>
      simp only [tokens, List.cons_append, List.nil_append, List.cons.injEq,
        Token.name.injEq] at heq
      obtain ⟨rfl, rfl⟩ := heq
      exact ⟨rfl, rfl⟩
  | method name' hname' =>
      obtain rfl : ts = _ := (List.cons.inj heq).2
      exact absurd rfl (hts '(' (by decide))
  | call name' hname' argument' =>
      obtain rfl : ts = _ := (List.cons.inj heq).2
      exact absurd rfl (hts '(' (by decide))
  | group | number => simp at heq

/-- A method is found again by its name and both parentheses. -/
theorem determined_method {name : List Char} (hname : IsName name) :
    (method name hname).Determined := by
  intro q ts us heq hts hus
  cases q with
  | reference name' hname' =>
      obtain rfl : us = _ := (List.cons.inj heq).2.symm
      exact absurd rfl (hus '(' (by decide))
  | method name' hname' =>
      simp only [tokens, List.cons_append, List.nil_append, List.cons.injEq,
        Token.name.injEq, true_and] at heq
      obtain ⟨rfl, rfl⟩ := heq
      exact ⟨rfl, rfl⟩
  | call name' hname' argument' =>
      simp only [tokens, List.cons_append, List.nil_append, List.cons.injEq,
        List.append_assoc, true_and] at heq
      exact absurd (congrArg List.head? heq.2.symm) (argument'.head?_ne_close _)
  | group | number => simp at heq

/-- A call is found again by its name, a parenthesis and its argument. -/
theorem determined_call {name : List Char} (hname : IsName name) {argument : Phrase .expression}
    (h : argument.Determined) : (call name hname argument).Determined := by
  intro q ts us heq hts hus
  cases q with
  | reference name' hname' =>
      obtain rfl : us = _ := (List.cons.inj heq).2.symm
      exact absurd rfl (hus '(' (by decide))
  | method name' hname' =>
      simp only [tokens, List.cons_append, List.nil_append, List.cons.injEq,
        List.append_assoc, true_and] at heq
      exact absurd (congrArg List.head? heq.2) (argument.head?_ne_close _)
  | call name' hname' argument' =>
      simp only [tokens, List.cons_append, List.append_assoc, List.cons.injEq,
        Token.name.injEq, true_and] at heq
      obtain ⟨rfl, heq⟩ := heq
      obtain ⟨rfl, hrest⟩ := h argument' heq (Part.Stops.close _ _) (Part.Stops.close _ _)
      exact ⟨rfl, (List.cons.inj hrest).2⟩
  | group | number => simp at heq

/-- **The grammar is unambiguous.**  Two phrases of one part at the head of the
same tokens, neither of which could go on, are one phrase. -/
theorem unique {part : Part} (p : Phrase part) : p.Determined := by
  induction p with
  | chain first rest ihf ihr => exact determined_chain ihf ihr
  | stop => exact determined_stop _
  | link sign hsign operand rest iho ihr => exact determined_link hsign iho ihr
  | signed sign hsign operand ih => exact determined_signed hsign ih
  | plain bottom ih => exact determined_plain ih
  | power bottom exponent ihb ihe => exact determined_power ihb ihe
  | group inner ih => exact determined_group ih
  | number text htext => exact determined_number htext
  | reference name hname => exact determined_reference hname
  | method name hname => exact determined_method hname
  | call name hname argument ih => exact determined_call hname ih

end Phrase

end Reckon
