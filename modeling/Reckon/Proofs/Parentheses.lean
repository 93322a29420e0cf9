import Reckon.Proofs.Phrase
/-!
# Parentheses in a text

A text leaves a parenthesis open if nothing behind it closes more than is
opened behind it (`LeavesOpen`).  A parenthesis opens a call if a name stands in
front of it (`callee`).

Parentheses are paired in a text as they are in the tokens that it spells
(`Spells.foldlM_paired`), and the tokens of a phrase close what they open
(`Phrase.foldlM_paired`).
-/

namespace Reckon

/-! ### Pairing -/

/-- How many parentheses are open behind a character in front of which so many
are.  There may be none to close. -/
def paired : Nat → Char → Option Nat
  | depth, '(' => some (depth + 1)
  | 0, ')' => none
  | depth + 1, ')' => some depth
  | depth, _ => some depth

theorem paired_of_ne (depth : Nat) {c : Char} (hopen : c ≠ '(') (hclose : c ≠ ')') :
    paired depth c = some depth := by
  unfold paired
  split <;> simp_all

/-- The same for a token. -/
def Token.paired (depth : Nat) : Token → Option Nat
  | .mark c => Reckon.paired depth c
  | .numeral _ | .name _ => some depth

/-- A text without parentheses changes nothing. -/
theorem foldlM_paired_of_ne (depth : Nat) {cs : List Char} (h : ∀ c ∈ cs, c ≠ '(' ∧ c ≠ ')') :
    cs.foldlM paired depth = some depth := by
  induction cs with
  | nil => rfl
  | cons c cs ih =>
      obtain ⟨⟨hopen, hclose⟩, hrest⟩ := List.forall_mem_cons.mp h
      rw [List.foldlM_cons, paired_of_ne depth hopen hclose]
      exact ih hrest

/-- **Parentheses are paired in a text as in its tokens.** -/
theorem Spells.foldlM_paired {cs : List Char} {ts : List Token} (h : Spells cs ts) :
    ∀ depth, cs.foldlM paired depth = ts.foldlM Token.paired depth := by
  have hrun : ∀ {p : Char → Bool} {cs : List Char} {ts : List Token} (t : Token),
      p '(' = false → p ')' = false → (∀ depth, t.paired depth = some depth) →
      (∀ depth, (cs.dropWhile p).foldlM paired depth = ts.foldlM Token.paired depth) →
      ∀ depth, cs.foldlM paired depth = (t :: ts).foldlM Token.paired depth := by
    intro p cs ts t hopen hclose ht ih depth
    have hnone : ∀ c ∈ cs.takeWhile p, c ≠ '(' ∧ c ≠ ')' := by
      intro c hc
      have hp := of_mem_takeWhile c hc
      constructor
      · rintro rfl
        exact absurd hp (by simp [hopen])
      · rintro rfl
        exact absurd hp (by simp [hclose])
    calc cs.foldlM paired depth
        = (cs.takeWhile p ++ cs.dropWhile p).foldlM paired depth := by
          rw [List.takeWhile_append_dropWhile]
      _ = (cs.dropWhile p).foldlM paired depth := by
          rw [List.foldlM_append, foldlM_paired_of_ne depth hnone]
          rfl
      _ = (t :: ts).foldlM Token.paired depth := by
          rw [ih, List.foldlM_cons, ht]
          rfl
  induction h with
  | done => exact fun depth => rfl
  | space rest ih => exact ih
  | mark hc rest ih =>
      intro depth
      rw [List.foldlM_cons, List.foldlM_cons]
      exact congrArg _ (funext ih)
  | numeral _ rest ih => exact hrun _ (by decide) (by decide) (fun depth => rfl) ih
  | name _ rest ih => exact hrun _ (by decide) (by decide) (fun depth => rfl) ih

/-- What is put into parentheses. -/
theorem foldlM_paired_enclosed {ts : List Token}
    (h : ∀ depth, ts.foldlM Token.paired depth = some depth) (depth : Nat) :
    (Token.mark '(' :: (ts ++ [.mark ')'])).foldlM Token.paired depth = some depth := by
  show (ts ++ [Token.mark ')']).foldlM Token.paired (depth + 1) = some depth
  rw [List.foldlM_append, h]
  rfl

/-- An operator changes nothing. -/
theorem foldlM_paired_mark {m : Char} (hopen : m ≠ '(') (hclose : m ≠ ')') (ts : List Token)
    (depth : Nat) :
    (Token.mark m :: ts).foldlM Token.paired depth = ts.foldlM Token.paired depth := by
  rw [List.foldlM_cons, Token.paired, paired_of_ne depth hopen hclose]
  rfl

theorem foldlM_paired_append {ts us : List Token} {depth : Nat}
    (h : ts.foldlM Token.paired depth = some depth) :
    (ts ++ us).foldlM Token.paired depth = us.foldlM Token.paired depth := by
  rw [List.foldlM_append, h]
  rfl

theorem Rank.sign_ne_parenthesis {r : Rank} {sign : Char} (h : sign ∈ r.signs) :
    sign ≠ '(' ∧ sign ≠ ')' := by
  cases r <;> simp [signs] at h <;> rcases h with rfl | rfl <;> decide

/-- **A phrase closes what it opens**, and nothing else. -/
theorem Phrase.foldlM_paired {part : Part} (p : Phrase part) :
    ∀ depth, p.tokens.foldlM Token.paired depth = some depth := by
  induction p with
  | chain first rest ihf ihr =>
      intro depth
      exact (foldlM_paired_append (ihf depth)).trans (ihr depth)
  | stop => exact fun depth => rfl
  | link sign hsign operand rest iho ihr =>
      intro depth
      obtain ⟨hopen, hclose⟩ := Rank.sign_ne_parenthesis hsign
      refine (foldlM_paired_mark hopen hclose _ depth).trans ?_
      exact (foldlM_paired_append (iho depth)).trans (ihr depth)
  | signed sign hsign operand ih =>
      intro depth
      obtain ⟨hopen, hclose⟩ := Rank.sign_ne_parenthesis hsign
      exact (foldlM_paired_mark hopen hclose _ depth).trans (ih depth)
  | plain bottom ih => exact ih
  | power bottom exponent ihb ihe =>
      intro depth
      refine (foldlM_paired_append (ihb depth)).trans ?_
      exact (foldlM_paired_mark (by decide) (by decide) _ depth).trans (ihe depth)
  | group inner ih => exact foldlM_paired_enclosed ih
  | number | reference => exact fun depth => rfl
  | method => exact fun depth => rfl
  | call name hname argument ih => exact foldlM_paired_enclosed ih

/-! ### What is left open -/

/-- The text opens a parenthesis at a place and does not close it: what follows
closes nothing but what it opens. -/
structure LeavesOpen (text : List Char) (i : Nat) : Prop where
  opens : text[i]? = some '('
  unclosed : ((text.drop (i + 1)).foldlM paired 0).isSome

instance (text : List Char) (i : Nat) : Decidable (LeavesOpen text i) :=
  decidable_of_iff (text[i]? = some '(' ∧ ((text.drop (i + 1)).foldlM paired 0).isSome)
    ⟨fun h => ⟨h.1, h.2⟩, fun h => ⟨h.opens, h.unclosed⟩⟩

/-- The name in front of a place, with nothing but spaces in between.  It is
empty if there is none. -/
def callee (text : List Char) (i : Nat) : List Char :=
  (((text.take i).reverse.dropWhile (· == ' ')).takeWhile Cursor.isAlphabetic).reverse

/-- The names of the calls that a text leaves open. -/
def openCalls (text : List Char) : List (List Char) :=
  (((List.range text.length).filter (LeavesOpen text ·)).map (callee text)).filter (· ≠ [])

theorem LeavesOpen.callee_mem {text : List Char} {i : Nat} (h : LeavesOpen text i)
    (hne : callee text i ≠ []) : callee text i ∈ openCalls text := by
  obtain ⟨hlt, -⟩ := List.getElem?_eq_some_iff.mp h.opens
  have hfilter : i ∈ (List.range text.length).filter (LeavesOpen text ·) :=
    List.mem_filter.mpr ⟨List.mem_range.mpr hlt, decide_eq_true h⟩
  exact List.mem_filter.mpr ⟨List.mem_map_of_mem hfilter, decide_eq_true hne⟩

/-- Only what stands before the place matters. -/
theorem callee_take (text : List Char) {i k : Nat} (h : i ≤ k) :
    callee (text.take k) i = callee text i := by
  rw [callee, callee, List.take_take, Nat.min_eq_left h]

/-- A name that no letter precedes is found from behind. -/
theorem callee_of_take {text before name gap : List Char} {i : Nat}
    (htake : text.take i = before ++ (name ++ gap)) (hname : IsName name)
    (hgap : ∀ c ∈ gap, c = ' ')
    (hbefore : ∀ c, before.getLast? = some c → Cursor.isAlphabetic c = false) :
    callee text i = name := by
  have hreverse : (text.take i).reverse = gap.reverse ++ (name.reverse ++ before.reverse) := by
    rw [htake, List.reverse_append, List.reverse_append, List.append_assoc]
  have hspaces : ∀ c ∈ gap.reverse, (c == ' ') = true := fun c hc => by
    simpa using hgap c (List.mem_reverse.mp hc)
  have hletters : ∀ c ∈ name.reverse, Cursor.isAlphabetic c = true := fun c hc =>
    hname.alphabetic c (List.mem_reverse.mp hc)
  have hlast : ∀ c, (name.reverse ++ before.reverse).head? = some c → (c == ' ') = false := by
    intro c hc
    obtain ⟨x, xs, hx⟩ := List.exists_cons_of_ne_nil (mt List.reverse_eq_nil_iff.mp hname.nonempty)
    rw [hx] at hc
    obtain rfl := Option.some.inj hc
    have halpha := hletters x (hx ▸ List.mem_cons_self)
    rw [beq_eq_false_iff_ne]
    rintro rfl
    exact absurd halpha (by decide)
  have hfirst : ∀ c, before.reverse.head? = some c → Cursor.isAlphabetic c = false := by
    intro c hc
    rw [List.head?_reverse] at hc
    exact hbefore c hc
  rw [callee, hreverse, dropWhile_run_append hspaces hlast, takeWhile_run_append hletters hfirst,
    List.reverse_reverse]

end Reckon
