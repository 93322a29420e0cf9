import Reckon.Proofs.ExpandedText
import Reckon.Proofs.Soundness
/-!
# Trees written down

A tree is written down with only the parentheses that the grammar needs: where
a level is required and the tree is looser, one pair encloses it.  What was
written is read back as the tree it was written from (`parse_textAt`), as soon as
as many levels are allowed as its phrase nests.

A text is followed up level by level: at each level it is the spelling of a
phrase with the tree in question (`Stands`), and every step of the writing, the
parentheses included, has a lemma that leads from the phrases of the parts to
that of the whole.
-/

namespace Reckon

/-! ### Levels -/

namespace Grammar.Level

/-- The part of a phrase that a level reads. -/
def part : Level → Part
  | .expression => .chain .sum
  | .term => .chain .product
  | .factor => .factor
  | .base => .base

/-- How tightly a level binds. -/
def tightness : Level → Nat
  | .expression => 0
  | .term => 1
  | .factor => 2
  | .base => 3

/-- A text of one level where another is required: in parentheses if it binds
too loosely. -/
def enclose (required own : Level) (text : List Char) : List Char :=
  if required.tightness ≤ own.tightness then text else '(' :: (text ++ [')'])

/-- How many factors nest in a text of one level where another is required.  A
numeral, a name, a call or a group is one factor more, unless a base is
required. -/
def nesting (required own : Level) (n : Nat) : Nat :=
  if required = .base ∨ required.tightness ≤ own.tightness ∧ own ≠ .base then n else n + 1

end Grammar.Level

open Grammar (Level)

/-- The level of a chain. -/
def Rank.level : Rank → Level
  | .sum => .expression
  | .product => .term

/-- The level of the operands in a chain. -/
def Rank.operandLevel : Rank → Level
  | .sum => .term
  | .product => .factor

@[simp] theorem Rank.part_level (r : Rank) : r.level.part = .chain r := by
  cases r <;> rfl

@[simp] theorem Rank.part_operandLevel (r : Rank) : r.operandLevel.part = r.operand := by
  cases r <;> rfl

/-! ### Writing -/

/-- A tree as it is written down in a scope.  A constant carries the numeral it
is written with, a variable the tree that the scope binds it to, and every name
means something. -/
inductive Written (scope : Scope) where
  | number (text : List Char) (htext : IsNumeral text)
  | reference (name : String) (hname : IsName name.toList) (producer : Expr)
      (hbound : scope.find? name = some producer)
  | method (name : String) (hmethod : name ∈ Method.names)
  | signed (sign : Char) (hsign : sign ∈ Rank.sum.signs) (operand : Written scope)
  /-- A sum, a difference, a product or a quotient. -/
  | linked (r : Rank) (sign : Char) (hsign : sign ∈ r.signs) (left right : Written scope)
  | power (bottom exponent : Written scope)
  | call (name : String) (hfunction : (Function.ofName? name).isSome) (argument : Written scope)

namespace Written

variable {scope : Scope}

/-- The tree that is written down, without positions. -/
def tree : Written scope → Expr
  | .number _ htext => .constant 0 htext.value
  | .reference name _ producer _ => .reference 0 name producer
  | .method name _ => .method 0 name
  | .signed sign _ operand => .unary 0 sign.toString operand.tree
  | .linked _ sign _ left right => .binary 0 sign.toString left.tree right.tree
  | .power bottom exponent => .binary 0 "^" bottom.tree exponent.tree
  | .call name _ argument => .call 0 name argument.tree

/-- The tightest level at which the tree can stand without parentheses. -/
def level : Written scope → Level
  | .linked r .. => r.level
  | .signed .. | .power .. => .factor
  | .number .. | .reference .. | .method .. | .call .. => .base

/-- The text of the tree, with parentheses around operands that bind too
loosely. -/
def text : Written scope → List Char
  | .number text _ => text
  | .reference name .. => name.toList
  | .method name _ => name.toList ++ ['(', ')']
  | .signed sign _ operand => sign :: Level.enclose .factor operand.level operand.text
  | .linked r sign _ left right =>
    r.level.enclose left.level left.text ++
      sign :: r.operandLevel.enclose right.level right.text
  | .power bottom exponent =>
    Level.enclose .base bottom.level bottom.text ++
      '^' :: Level.enclose .factor exponent.level exponent.text
  | .call name _ argument =>
    name.toList ++ '(' :: (Level.enclose .expression argument.level argument.text ++ [')'])

/-- How many factors lie within each other in the text of the tree. -/
def nesting : Written scope → Nat
  | .number .. | .reference .. | .method .. => 0
  | .signed _ _ operand => Level.nesting .factor operand.level operand.nesting + 1
  | .linked r _ _ left right =>
    max (r.level.nesting left.level left.nesting)
      (r.operandLevel.nesting right.level right.nesting)
  | .power bottom exponent =>
    max (Level.nesting .base bottom.level bottom.nesting)
      (Level.nesting .factor exponent.level exponent.nesting) + 1
  | .call _ _ argument => Level.nesting .expression argument.level argument.nesting

/-- The text of the tree where a level is required. -/
def textAt (required : Level) (t : Written scope) : List Char :=
  required.enclose t.level t.text

/-- How many factors nest in the text of the tree where a level is required. -/
def nestingAt (required : Level) (t : Written scope) : Nat :=
  required.nesting t.level t.nesting

end Written

/-! ### What was written stands there -/

/-- A text spells a phrase of a part, all names of which mean something, with a
given tree and a given number of factors within each other. -/
def Stands (scope : Scope) (part : Part) (text : List Char) (tree : Expr) (n : Nat) : Prop :=
  ∃ p : Phrase part, Spells text p.tokens ∧ p.Resolved scope ∧ p.tree scope = tree ∧ p.nesting = n

/-- The names of functions are names. -/
theorem Function.isName {name : String} (h : (ofName? name).isSome) : IsName name.toList := by
  have htable : ∀ name ∈ table.map Prod.fst,
      name.toList ≠ [] ∧ name.toList.all Cursor.isAlphabetic := by decide
  obtain ⟨hne, halpha⟩ := htable name (isSome_ofName?.mp h)
  exact ⟨hne, List.all_eq_true.mp halpha⟩

/-- The names of methods are names. -/
theorem Method.isName {name : String} (h : name ∈ names) : IsName name.toList := by
  have hnames : ∀ name ∈ names,
      name.toList ≠ [] ∧ name.toList.all Cursor.isAlphabetic := by decide
  obtain ⟨hne, halpha⟩ := hnames name h
  exact ⟨hne, List.all_eq_true.mp halpha⟩

/-- A text in parentheses spells the marks around its tokens. -/
theorem Spells.parenthesized {text : List Char} {ts : List Token} (h : Spells text ts) :
    Spells ('(' :: (text ++ [')'])) (.mark '(' :: (ts ++ [.mark ')'])) :=
  .mark (by decide) (h.append (by decide) (.mark (by decide) .done))

/-- A name in front of a parenthesis is a token of its own. -/
theorem Spells.called {name rest : List Char} {ts : List Token} (hname : IsName name)
    (h : Spells ('(' :: rest) ts) : Spells (name ++ '(' :: rest) (.name name :: ts) := by
  refine .name_append hname (fun c hc => ?_) h
  obtain rfl : '(' = c := by simpa using hc
  decide

namespace Stands

variable {scope : Scope} {text left right : List Char} {tree tree' : Expr} {m n : Nat}

/-- A numeral stands for its number. -/
theorem number (htext : IsNumeral text) :
    Stands scope .base text (.constant 0 htext.value) 0 := by
  have hspells : Spells (text ++ []) [.numeral text] := .numeral_append htext (by simp) .done
  rw [List.append_nil] at hspells
  exact ⟨.number text htext, hspells, trivial, rfl, rfl⟩

/-- A bound name stands for its variable. -/
theorem reference {name : String} (hname : IsName name.toList) {producer : Expr}
    (hbound : scope.find? name = some producer) :
    Stands scope .base name.toList (.reference 0 name producer) 0 := by
  have hspells : Spells (name.toList ++ []) [.name name.toList] :=
    .name_append hname (by simp) .done
  rw [List.append_nil] at hspells
  refine ⟨.reference name.toList hname, hspells, ?_, ?_, rfl⟩
  · simp [Phrase.Resolved, hbound]
  · simp [Phrase.tree, Phrase.treeBehind, hbound]

/-- A known name with both parentheses stands for its method. -/
theorem method {name : String} (h : name ∈ Method.names) :
    Stands scope .base (name.toList ++ ['(', ')']) (.method 0 name) 0 := by
  have hspells := Spells.called (Method.isName h) (Spells.parenthesized .done)
  refine ⟨.method name.toList (Method.isName h), hspells, ?_, ?_, rfl⟩
  · simpa [Phrase.Resolved] using h
  · simp [Phrase.tree, Phrase.treeBehind]

/-- A known name in front of a group stands for its function. -/
theorem call {name : String} (hfunction : (Function.ofName? name).isSome)
    (h : Stands scope .expression text tree n) :
    Stands scope .base (name.toList ++ '(' :: (text ++ [')'])) (.call 0 name tree) n := by
  obtain ⟨p, hspells, hresolved, rfl, hn⟩ := h
  have hname := Function.isName hfunction
  refine ⟨.call name.toList hname p, .called hname hspells.parenthesized, ⟨?_, hresolved⟩, ?_, hn⟩
  · simpa using hfunction
  · simp [Phrase.tree, Phrase.treeBehind]

/-- Parentheses around an expression make a base of it. -/
theorem group (h : Stands scope .expression text tree n) :
    Stands scope .base ('(' :: (text ++ [')'])) tree n := by
  obtain ⟨p, hspells, hresolved, htree, hn⟩ := h
  exact ⟨.group p, hspells.parenthesized, hresolved, htree, hn⟩

/-- A base is a factor, and nests one more. -/
theorem plain (h : Stands scope .base text tree n) :
    Stands scope .factor text tree (n + 1) := by
  obtain ⟨p, hspells, hresolved, htree, rfl⟩ := h
  exact ⟨.plain p, hspells, hresolved, htree, rfl⟩

/-- An operand by itself is a chain. -/
theorem single {r : Rank} (h : Stands scope r.operand text tree n) :
    Stands scope (.chain r) text tree n := by
  obtain ⟨p, hspells, hresolved, htree, rfl⟩ := h
  refine ⟨.chain p .stop, ?_, ⟨hresolved, trivial⟩, htree, Nat.max_zero _⟩
  rwa [Phrase.tokens, Phrase.tokens, List.append_nil]

/-- A sign in front of a factor makes another. -/
theorem signed {sign : Char} (hsign : sign ∈ Rank.sum.signs)
    (h : Stands scope .factor text tree n) :
    Stands scope .factor (sign :: text) (.unary 0 sign.toString tree) (n + 1) := by
  obtain ⟨p, hspells, hresolved, rfl, rfl⟩ := h
  have hmark := Grammar.signs_subset_marks .sum sign hsign
  exact ⟨.signed sign hsign p, .mark hmark hspells, hresolved, rfl, rfl⟩

/-- A caret between a base and a factor makes a power. -/
theorem power (hleft : Stands scope .base left tree m)
    (hright : Stands scope .factor right tree' n) :
    Stands scope .factor (left ++ '^' :: right) (.binary 0 "^" tree tree') (max m n + 1) := by
  obtain ⟨p, hspells, hresolved, rfl, rfl⟩ := hleft
  obtain ⟨q, hspells', hresolved', rfl, rfl⟩ := hright
  exact ⟨.power p q, hspells.append (by decide) (.mark (by decide) hspells'),
    ⟨hresolved, hresolved'⟩, rfl, rfl⟩

end Stands

/-- Links can take one more at their end, which becomes the outermost
operation. -/
theorem Phrase.exists_link_last (scope : Scope) {r : Rank} {sign : Char} (hsign : sign ∈ r.signs)
    (operand : Phrase r.operand) {part : Part} (p : Phrase part) :
    part = .links r → ∃ q : Phrase (.links r),
      q.tokens = p.tokens ++ .mark sign :: operand.tokens ∧
      (p.Resolved scope → operand.Resolved scope → q.Resolved scope) ∧
      (∀ left, q.treeBehind scope left =
        .binary 0 sign.toString (p.treeBehind scope left) (operand.tree scope)) ∧
      q.nesting = max p.nesting operand.nesting := by
  induction p with
  | stop =>
      intro hpart
      cases hpart
      refine ⟨.link sign hsign operand .stop, by simp [tokens], ?_, fun left => rfl, ?_⟩
      · exact fun hrest hoperand => ⟨hoperand, trivial⟩
      · exact Nat.max_comm _ _
  | link sign' hsign' operand' rest _ ih =>
      intro hpart
      cases hpart
      obtain ⟨q, htokens, hresolved, htree, hnesting⟩ := ih rfl
      refine ⟨.link sign' hsign' operand' q, by simp [tokens, htokens], ?_, fun left => htree _, ?_⟩
      · exact fun hrest hoperand => ⟨hrest.1, hresolved hrest.2 hoperand⟩
      · rw [nesting, nesting, hnesting, Nat.max_assoc]
  | chain | signed | plain | power | group | number | reference | method | call =>
      intro hpart
      cases hpart

namespace Stands

variable {scope : Scope} {text left right : List Char} {tree tree' : Expr} {m n : Nat}

/-- A chain goes on with an operator and an operand. -/
theorem linked {r : Rank} {sign : Char} (hsign : sign ∈ r.signs)
    (hleft : Stands scope (.chain r) left tree m)
    (hright : Stands scope r.operand right tree' n) :
    Stands scope (.chain r) (left ++ sign :: right) (.binary 0 sign.toString tree tree')
      (max m n) := by
  obtain ⟨p, hspells, hresolved, rfl, rfl⟩ := hleft
  obtain ⟨q, hspells', hresolved', rfl, rfl⟩ := hright
  have hmark := Grammar.signs_subset_marks r sign hsign
  cases p with
  | chain first rest =>
      obtain ⟨longer, htokens, hlonger, htree, hnesting⟩ :=
        Phrase.exists_link_last scope hsign q rest rfl
      refine ⟨.chain first longer, ?_, ⟨hresolved.1, hlonger hresolved.2 hresolved'⟩, htree _, ?_⟩
      · have happend := hspells.append hmark (.mark hmark hspells')
        rwa [Phrase.tokens, htokens, ← List.append_assoc]
      · rw [Phrase.nesting, Phrase.nesting, hnesting, Nat.max_assoc]

/-- A chain, or what is tighter, stands where an expression is required, with
one factor more if it is a base. -/
theorem expression {own : Level} (h : Stands scope own.part text tree n) :
    Stands scope .expression text tree (Level.nesting .expression own n) := by
  cases own with
  | expression => exact h
  | term => exact .single (r := .sum) h
  | factor => exact .single (r := .sum) (.single (r := .product) h)
  | base => exact .single (r := .sum) (.single (r := .product) h.plain)

/-- Whatever level is required, a text stands there, in parentheses if need
be. -/
theorem enclose {own : Level} (required : Level) (h : Stands scope own.part text tree n) :
    Stands scope required.part (required.enclose own text) tree (required.nesting own n) := by
  have hgroup (hown : own ≠ .base) : Stands scope .base ('(' :: (text ++ [')'])) tree n := by
    have hinner := h.expression
    rw [Level.nesting, if_pos (Or.inr ⟨Nat.zero_le _, hown⟩)] at hinner
    exact hinner.group
  cases required with
  | expression => exact h.expression
  | term =>
      cases own with
      | expression => exact .single (r := .product) (hgroup (by decide)).plain
      | term => exact h
      | factor => exact .single (r := .product) h
      | base => exact .single (r := .product) h.plain
  | factor =>
      cases own with
      | expression | term => exact (hgroup (by decide)).plain
      | factor => exact h
      | base => exact h.plain
  | base =>
      cases own with
      | expression | term | factor => exact hgroup (by decide)
      | base => exact h

end Stands

/-- **What is written down stands there** as a phrase of its level. -/
theorem Written.stands {scope : Scope} (t : Written scope) :
    Stands scope t.level.part t.text t.tree t.nesting := by
  induction t with
  | number text htext => exact .number htext
  | reference name hname producer hbound => exact .reference hname hbound
  | method name hmethod => exact .method hmethod
  | signed sign hsign operand ih => exact .signed hsign (ih.enclose .factor)
  | linked r sign hsign left right ihl ihr =>
      have hleft := ihl.enclose r.level
      have hright := ihr.enclose r.operandLevel
      rw [Rank.part_level] at hleft
      rw [Rank.part_operandLevel] at hright
      rw [level, Rank.part_level]
      exact .linked hsign hleft hright
  | power bottom exponent ihb ihe => exact .power (ihb.enclose .base) (ihe.enclose .factor)
  | call name hfunction argument ih => exact .call hfunction (ih.enclose .expression)

open Grammar in
/-- **What is written down is read back.**  The text of a tree, with no more
parentheses than it needs, spells a phrase; and under every limit that allows
as many factors within each other as this phrase has, the text is read as the
tree that was written down. -/
theorem parse_textAt {scope : Scope} (t : Written scope) (limit : Int)
    (hlimit : t.nestingAt .expression ≤ limit) :
    (∃ p : Phrase .expression, Spells (t.textAt .expression) p.tokens ∧
      p.nesting = t.nestingAt .expression) ∧
    ∃ tree, parse scope limit (String.ofList (t.textAt .expression)) = .ok tree ∧
      tree.unplaced = t.tree := by
  have hstands : Stands scope .expression (t.textAt .expression) t.tree (t.nestingAt .expression) :=
    t.stands.enclose .expression
  obtain ⟨p, hspells, hresolved, htree, hnesting⟩ := hstands
  refine ⟨⟨p, hspells, hnesting⟩, ?_⟩
  have hsource : Spells (String.ofList (t.textAt .expression)).toList p.tokens := by
    rwa [String.toList_ofList]
  have hderives : Derives scope limit (String.ofList (t.textAt .expression)) p :=
    ⟨hsource, hresolved, by rwa [hnesting]⟩
  obtain ⟨tree, hread⟩ := parse_of_derives hderives
  obtain ⟨q, hq, hqtree⟩ := derives_of_parse hread
  obtain rfl := phrase_unique hq.spells hsource
  exact ⟨tree, hread, hqtree.trans htree⟩

/-- A sign below a power, a sign in an exponent, and differences to the right of
others need parentheses, a call does not; six factors lie within each other. -/
theorem parse_textAt_power : ∃ t : Written .seeded,
    String.ofList (t.textAt .expression) = "(-2)^-(e-(1-sqrt(.5)))" ∧
    t.nestingAt .expression = 6 ∧
    ∃ tree, parse .seeded 6 (String.ofList (t.textAt .expression)) = .ok tree ∧
      tree.unplaced = t.tree := by
  have hnumeral (c : Char) (hc : Cursor.isNumeric c ∧ c ≠ '.') : IsNumeral [c] :=
    ⟨by simpa using hc.1, by simpa using hc.2, by simp [hc.2]⟩
  have hhalf : IsNumeral ['.', '5'] := ⟨by simp [Cursor.isNumeric], ⟨'5', by simp⟩, by decide⟩
  have he : IsName "e".toList := ⟨by decide, List.all_eq_true.mp (by decide)⟩
  refine ⟨.power (.signed '-' (by decide) (.number ['2'] (hnumeral '2' (by decide))))
    (.signed '-' (by decide) (.linked .sum '-' (by decide)
      (.reference "e" he (.constant 0 euler) rfl)
      (.linked .sum '-' (by decide) (.number ['1'] (hnumeral '1' (by decide)))
        (.call "sqrt" (by decide) (.number ['.', '5'] hhalf))))), rfl, rfl, ?_⟩
  refine (parse_textAt _ 6 ?_).2
  exact Int.le_refl 6

end Reckon
