import Reckon.Proofs.Spelling
/-!
# Variables written out in a text

A variable is written out when a text in parentheses takes the place of its
name.  A name is not a variable where a parenthesis follows it: there it is
called.

Parentheses keep the runs on either side apart, so writing variables out in a
text is the same as writing them out in its tokens (`Spells.expand`).
-/

namespace Reckon

/-- What takes the place of a run of letters: the text in parentheses if the run
is the name and not called, else the run itself. -/
def expandRun (x text run rest : List Char) : List Char :=
  if run = x ∧ (behindSpaces rest).head? ≠ some '(' then '(' :: (text ++ [')']) else run

/-- A text in which a variable is written out wherever it occurs. -/
def expandText (x text : List Char) : List Char → List Char
  | [] => []
  | c :: cs =>
    if Cursor.isAlphabetic c then
      expandRun x text (c :: cs.takeWhile Cursor.isAlphabetic) (cs.dropWhile Cursor.isAlphabetic) ++
        expandText x text (cs.dropWhile Cursor.isAlphabetic)
    else c :: expandText x text cs
termination_by cs => cs.length
decreasing_by
  · have hle := (List.dropWhile_suffix Cursor.isAlphabetic (l := cs)).length_le
    simp only [List.length_cons]
    omega
  · simp

/-- The tokens in which a variable is written out wherever it occurs. -/
def expandTokens (x : List Char) (us : List Token) : List Token → List Token
  | [] => []
  | .name run :: ts =>
    (if run = x ∧ ts.head? ≠ some (.mark '(') then .mark '(' :: (us ++ [.mark ')'])
      else [.name run]) ++ expandTokens x us ts
  | t :: ts => t :: expandTokens x us ts

variable {x text : List Char}

theorem expandTokens_mark {us : List Token} (c : Char) (ts : List Token) :
    expandTokens x us (.mark c :: ts) = .mark c :: expandTokens x us ts := rfl

/-! ### Texts put together -/

/-- A text may be put in front of a character that belongs to no run. -/
theorem Spells.append_apart {cs ds : List Char} {ts us : List Token} {m : Char} (h : Spells cs ts)
    (hnumeric : Cursor.isNumeric m = false) (halphabetic : Cursor.isAlphabetic m = false)
    (h' : Spells (m :: ds) us) : Spells (cs ++ m :: ds) (ts ++ us) := by
  induction h with
  | done => exact h'
  | space rest ih => exact .space ih
  | mark hc rest ih => exact .mark hc ih
  | @numeral cs ts hrun rest ih =>
      rw [← dropWhile_append_cons hnumeric] at ih
      rw [← takeWhile_append_cons hnumeric cs ds] at hrun ⊢
      exact .numeral hrun ih
  | @name cs ts hrun rest ih =>
      rw [← dropWhile_append_cons halphabetic] at ih
      rw [← takeWhile_append_cons halphabetic cs ds] at hrun ⊢
      exact .name hrun ih

/-- A text may be put in front of a mark. -/
theorem Spells.append {cs ds : List Char} {ts us : List Token} {m : Char} (h : Spells cs ts)
    (hm : m ∈ marks) (h' : Spells (m :: ds) us) : Spells (cs ++ m :: ds) (ts ++ us) :=
  h.append_apart (class_of_mem_marks hm).2.1 (class_of_mem_marks hm).2.2 h'

/-- The mark behind the spaces is the first token. -/
theorem Spells.head?_mark_iff {cs : List Char} {ts : List Token} (h : Spells cs ts) {m : Char}
    (hm : m ∈ marks) : (Reckon.behindSpaces cs).head? = some m ↔ ts.head? = some (.mark m) := by
  have hspells := h.behindSpaces
  constructor
  · intro hhead
    obtain ⟨rest, hrest⟩ := List.head?_eq_some_iff.mp hhead
    rw [hrest] at hspells
    obtain ⟨hne, hnumeric, halphabetic⟩ := class_of_mem_marks hm
    obtain ⟨hspace, -⟩ | ⟨-, us, rfl, -⟩ | ⟨hn, -⟩ | ⟨ha, -⟩ := hspells.cons_inv
    · exact absurd hspace hne
    · rfl
    · exact absurd hn (by simp [hnumeric])
    · exact absurd ha (by simp [halphabetic])
  · intro hhead
    obtain ⟨us, rfl⟩ := List.head?_eq_some_iff.mp hhead
    obtain ⟨rest, hrest, -⟩ := hspells.mark_inv (head?_behindSpaces_ne _)
    rw [hrest]
    rfl

/-! ### Writing out -/

/-- Where no letter stands nothing is written out. -/
theorem expandText_append {run : List Char} (hrun : ∀ c ∈ run, Cursor.isAlphabetic c = false)
    (rest : List Char) : expandText x text (run ++ rest) = run ++ expandText x text rest := by
  induction run with
  | nil => rfl
  | cons c run ih =>
      obtain ⟨hc, hrun⟩ := List.forall_mem_cons.mp hrun
      rw [List.cons_append, expandText, if_neg (by simp [hc]), ih hrun, List.cons_append]

/-- A name is written out as a whole. -/
theorem expandText_name {cs : List Char} (h : IsName (cs.takeWhile Cursor.isAlphabetic)) :
    expandText x text cs =
      expandRun x text (cs.takeWhile Cursor.isAlphabetic) (cs.dropWhile Cursor.isAlphabetic) ++
        expandText x text (cs.dropWhile Cursor.isAlphabetic) := by
  obtain ⟨c, rest, rfl, hc⟩ := h.head
  rw [expandText, if_pos hc, List.takeWhile_cons_of_pos hc, List.dropWhile_cons_of_pos hc]

/-- A text in which variables are written out begins as before, or with a
parenthesis. -/
theorem head?_expandText (cs : List Char) :
    (expandText x text cs).head? = cs.head? ∨ (expandText x text cs).head? = some '(' := by
  cases cs with
  | nil => exact Or.inl (by rw [expandText])
  | cons c cs =>
      rw [expandText]
      split
      · rw [expandRun]
        split
        · exact Or.inr rfl
        · exact Or.inl rfl
      · exact Or.inl rfl

/-- Nothing that is written out goes on with the run before it. -/
theorem head?_expandText_dropWhile {p : Char → Bool} (hp : p '(' = false) {cs : List Char}
    {c : Char} (h : (expandText x text (cs.dropWhile p)).head? = some c) : p c = false := by
  rcases head?_expandText (cs.dropWhile p) with hsame | hopen
  · exact head?_dropWhile_ne (hsame.symm.trans h)
  · obtain rfl := Option.some.inj (hopen.symm.trans h)
    exact hp

/-- **To write a variable out in a text is to write it out in its tokens.** -/
theorem Spells.expand {cs : List Char} {ts us : List Token} (h : Spells cs ts)
    (htext : Spells text us) : Spells (expandText x text cs) (expandTokens x us ts) := by
  induction h with
  | done =>
      rw [expandText]
      exact .done
  | space rest ih =>
      rw [expandText, if_neg (by decide)]
      exact .space ih
  | mark hc rest ih =>
      rw [expandText, if_neg (by simp [(class_of_mem_marks hc).2.2])]
      exact .mark hc ih
  | @numeral cs ts hrun rest ih =>
      have hsplit := List.takeWhile_append_dropWhile (p := Cursor.isNumeric) (l := cs)
      have hexpand : expandText x text cs = cs.takeWhile Cursor.isNumeric ++
          expandText x text (cs.dropWhile Cursor.isNumeric) := by
        rw [← expandText_append fun c hc => isAlphabetic_of_isNumeric (hrun.numeric c hc), hsplit]
      rw [hexpand]
      exact .numeral_append hrun (fun c => head?_expandText_dropWhile (by decide)) ih
  | @name cs ts hrun rest ih =>
      have hcalled := rest.head?_mark_iff (m := '(') (by decide)
      rw [expandText_name hrun, expandRun, expandTokens]
      by_cases hx : cs.takeWhile Cursor.isAlphabetic = x ∧ ts.head? ≠ some (.mark '(')
      · rw [if_pos hx, if_pos ⟨hx.1, fun h => hx.2 (hcalled.mp h)⟩]
        have hclose := Spells.append htext (by decide) (.mark (c := ')') (by decide) ih)
        simpa using Spells.mark (c := '(') (by decide) hclose
      · rw [if_neg hx, if_neg fun h => hx ⟨h.1, fun h' => h.2 (hcalled.mpr h')⟩]
        exact .name_append hrun (fun c => head?_expandText_dropWhile (by decide)) ih

end Reckon
