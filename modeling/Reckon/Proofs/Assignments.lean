import Mathlib.Data.List.TakeWhile
import Reckon.Proofs.Calculations
/-!
# Assignments

An assignment is a name, an equals sign and an expression (`Form`).  It is good
on a desk if its expression is read with the variables that are bound there and
has a value; then the name is bound to that value (`Good`), and otherwise the
assignment fails for one of three reasons (`Bad`).

Assignments are carried out one after the other, each on the desk as the one
before has left it.  All of them succeed precisely if each is good in its turn;
otherwise the first bad one says what is wrong, and the variables are as those
before it have left them (`assignments_bind_in_order`).
-/

namespace Reckon

/-! ### Blanks at the ends -/

namespace Text

/-- A text with blanks at its ends, and what is between them. -/
structure Trims (cs name before after : List Char) : Prop where
  split : cs = before ++ name ++ after
  blank : ∀ c ∈ before ++ after, isBlank c = true
  first : ∀ c, name.head? = some c → isBlank c = false
  last : ∀ c, name.getLast? = some c → isBlank c = false

/-- Blanks in front are dropped, up to what is none. -/
theorem dropWhile_blank_append {gap cs : List Char} (hgap : ∀ c ∈ gap, isBlank c = true)
    (hcs : ∀ c, cs.head? = some c → isBlank c = false) :
    (gap ++ cs).dropWhile isBlank = cs := by
  induction gap with
  | nil =>
      cases cs with
      | nil => rfl
      | cons c cs => simp [hcs c rfl]
  | cons x gap ih =>
      rw [List.cons_append, List.dropWhile_cons_of_pos (hgap x List.mem_cons_self)]
      exact ih fun c hc => hgap c (List.mem_cons_of_mem _ hc)

/-- A name between blanks is what is left when they are stripped. -/
theorem Trims.stripChars_eq {cs name before after : List Char} (h : Trims cs name before after)
    (hname : name ≠ []) : stripChars cs = name := by
  obtain ⟨rfl, hblank, hfirst, hlast⟩ := h
  have hfront : (before ++ name ++ after).dropWhile isBlank = name ++ after := by
    rw [List.append_assoc]
    apply dropWhile_blank_append fun c hc => hblank c (List.mem_append_left _ hc)
    intro c hc
    rw [List.head?_append, List.head?_eq_some_head hname] at hc
    exact hfirst c ((List.head?_eq_some_head hname).trans hc)
  have hback : (name ++ after).reverse.dropWhile isBlank = name.reverse := by
    rw [List.reverse_append]
    apply dropWhile_blank_append
    · intro c hc
      exact hblank c (List.mem_append_right _ (List.mem_reverse.mp hc))
    · intro c hc
      rw [List.head?_reverse] at hc
      exact hlast c hc
  rw [stripChars, hfront, hback, List.reverse_reverse]

/-- What is stripped stands between blanks. -/
theorem exists_trims (cs : List Char) : ∃ before after, Trims cs (stripChars cs) before after := by
  have hfront := List.takeWhile_append_dropWhile (p := isBlank) (l := cs)
  have hback := List.takeWhile_append_dropWhile (p := isBlank)
    (l := (cs.dropWhile isBlank).reverse)
  have hmiddle : cs.dropWhile isBlank =
      stripChars cs ++ ((cs.dropWhile isBlank).reverse.takeWhile isBlank).reverse := by
    rw [stripChars, ← List.reverse_append, hback, List.reverse_reverse]
  refine ⟨cs.takeWhile isBlank, ((cs.dropWhile isBlank).reverse.takeWhile isBlank).reverse,
    ?_, ?_, ?_, ?_⟩
  · rw [List.append_assoc, ← hmiddle, hfront]
  · intro c hc
    rcases List.mem_append.mp hc with hc | hc
    · exact of_mem_takeWhile c hc
    · exact of_mem_takeWhile c (List.mem_reverse.mp hc)
  · intro c hc
    have hhead : (cs.dropWhile isBlank).head? = some c := by
      rw [hmiddle, List.head?_append, hc]
      rfl
    exact head?_dropWhile_ne hhead
  · intro c hc
    rw [stripChars, List.getLast?_reverse] at hc
    exact head?_dropWhile_ne hc

end Text

/-! ### One assignment -/

namespace Assignment

/-- The form of an assignment: a name that is not empty, blanks around it left
out, and behind the first equals sign the expression. -/
def Form (text name source : String) : Prop :=
  ∃ left before after, text.toList = left ++ '=' :: source.toList ∧ '=' ∉ left ∧
    Text.Trims left name.toList before after ∧ name ≠ ""

/-- What stands before the first equals sign is stripped, and must leave
something. -/
theorem split?_of_cut {text : String} {left value : List Char} (hleft : '=' ∉ left)
    (htext : text.toList = left ++ '=' :: value) :
    split? text = if Text.stripChars left = [] then none
      else some (String.ofList (Text.stripChars left), String.ofList value) := by
  have hpass : ∀ c ∈ left, decide (c ≠ '=') = true := by
    intro c hc
    exact decide_eq_true fun h => hleft (h ▸ hc)
  have hbefore : text.toList.takeWhile (· ≠ '=') = left := by
    rw [htext, takeWhile_append_cons (by decide), List.takeWhile_eq_self_iff.mpr hpass]
  have hbehind : text.toList.dropWhile (· ≠ '=') = '=' :: value := by
    rw [htext, dropWhile_append_cons (by decide), List.dropWhile_eq_nil_iff.mpr hpass,
      List.nil_append]
  unfold split?
  simp only [hbefore, hbehind, List.isEmpty_iff]

/-- An assignment is split as its form says. -/
theorem split?_eq_some {text name source : String} :
    split? text = some (name, source) ↔ Form text name source := by
  constructor
  · intro h
    by_cases hmem : '=' ∈ text.toList
    · obtain ⟨left, value, htext, hleft⟩ := List.eq_append_cons_of_mem hmem
      obtain ⟨before, after, htrims⟩ := Text.exists_trims left
      rw [split?_of_cut hleft htext] at h
      split at h
      · cases h
      · next hname =>
          cases h
          refine ⟨left, before, after, by rwa [String.toList_ofList], hleft,
            by rwa [String.toList_ofList], fun hempty => hname ?_⟩
          exact String.ofList_eq_empty_iff.mp hempty
    · have hnone : text.toList.dropWhile (· ≠ '=') = [] := by
        apply List.dropWhile_eq_nil_iff.mpr
        intro c hc
        exact decide_eq_true fun heq => hmem (heq ▸ hc)
      unfold split? at h
      simp only [hnone] at h
      cases h
  · rintro ⟨left, before, after, htext, hleft, htrims, hname⟩
    have hne : name.toList ≠ [] := by simpa using hname
    rw [split?_of_cut hleft htext, htrims.stripChars_eq hne, if_neg hne, String.ofList_toList,
      String.ofList_toList]

/-- What is not split has no form. -/
theorem split?_eq_none {text : String} :
    split? text = none ↔ ∀ name source, ¬ Form text name source := by
  constructor
  · intro h name source hform
    rw [split?_eq_some.mpr hform] at h
    cases h
  · intro h
    cases hsplit : split? text with
    | none => rfl
    | some parts => exact absurd (split?_eq_some.mp hsplit) (h parts.1 parts.2)

variable (limit : Datum)

/-- A good assignment: with the variables of the desk its expression is read,
and has a value with the sources of the desk; the name is bound to the value. -/
inductive Good : Desk → String → String × Float → Desk → Prop
  | intro {d : Desk} {text name source : String} {tree : Expr} {x : Float} {s : Sources}
      (hform : Form text name source) (hread : parseUnder d.scope limit source = .ok tree)
      (hvalue : tree.value Sources.world d.sources = .ok x s) :
      Good d text (name, x)
        ⟨d.scope.bind name (.constant 0 x), s,
          d.journal ++ [.parsed source tree, .bound name (.constant 0 x)]⟩

/-- What is wrong with an assignment on a desk: its form, or else that its
expression cannot be read, or else that it has no value. -/
inductive Bad (d : Desk) (text : String) : Fault → Prop
  | form (h : ∀ name source, ¬ Form text name source) : Bad d text (.assignment text)
  | unread {name source : String} {f : Fault} (hform : Form text name source)
      (hread : parseUnder d.scope limit source = .error f) : Bad d text f
  | worthless {name source : String} {tree : Expr} {e : EvalError} {s : Sources}
      (hform : Form text name source) (hread : parseUnder d.scope limit source = .ok tree)
      (hvalue : tree.value Sources.world d.sources = .error e s) : Bad d text (.evaluation e)

/-- Good assignments one after the other, and what they bind. -/
inductive Bound : Desk → List String → List (String × Float) → Desk → Prop
  | nil (d : Desk) : Bound d [] [] d
  | cons {d d₁ d' : Desk} {text : String} {texts : List String} {v : String × Float}
      {bound : List (String × Float)} (h : Good limit d text v d₁)
      (rest : Bound d₁ texts bound d') : Bound d (text :: texts) (v :: bound) d'

variable {limit}

section Perform

variable {d d' : Desk} {text name source : String}

/-- An assignment of a form is read, evaluated and bound. -/
theorem perform_eq (hform : Form text name source) : perform limit text = (do
    let tree ← Work.read limit source
    let value ← Work.evaluate tree
    Work.assign name (.scalar (.number (.double value)))) := by
  unfold perform
  rw [split?_eq_some.mpr hform]

/-- What is read is noted in the journal. -/
theorem read_of_ok {tree : Expr} (h : parseUnder d.scope limit source = .ok tree) :
    Work.read limit source d =
      .ok tree { d with journal := d.journal ++ [.parsed source tree] } := by
  show (Work.lift id (parseUnder d.scope limit source) >>= fun _ => _) d = _
  rw [h]
  rfl

/-- What cannot be read leaves the desk as it was. -/
theorem read_of_error {f : Fault} (h : parseUnder d.scope limit source = .error f) :
    Work.read limit source d = .error f d := by
  show (Work.lift id (parseUnder d.scope limit source) >>= fun _ => _) d = _
  rw [h]
  rfl

/-- An evaluation changes nothing of the desk but its sources. -/
theorem evaluate_of_ok (d : Desk) {tree : Expr} {x : Float} {s : Sources}
    (h : tree.value Sources.world d.sources = .ok x s) :
    Work.evaluate tree d = .ok x { d with sources := s } := by
  rw [Work.evaluate, Reckon.evaluate, evaluateIn_eq_value, h]

/-- An evaluation that fails changes nothing of the desk but its sources. -/
theorem evaluate_of_error (d : Desk) {tree : Expr} {e : EvalError} {s : Sources}
    (h : tree.value Sources.world d.sources = .error e s) :
    Work.evaluate tree d = .error (.evaluation e) { d with sources := s } := by
  rw [Work.evaluate, Reckon.evaluate, evaluateIn_eq_value, h]

/-- A good assignment binds its name. -/
theorem Good.perform {v : String × Float} (h : Good limit d text v d') :
    perform limit text d = .ok () d' := by
  cases h with
  | @intro name source tree x s hform hread hvalue =>
      have hevaluate := evaluate_of_ok
        { d with journal := d.journal ++ [.parsed source tree] } hvalue
      rw [perform_eq hform, bind_of_ok (read_of_ok hread), bind_of_ok hevaluate,
        Settings.assign_of_toDouble? rfl]
      simp [Desk.withVariables]

/-- A bad assignment fails as it should, and the variables are as they were. -/
theorem Bad.perform {f : Fault} (h : Bad limit d text f) :
    ∃ d', perform limit text d = .error f d' ∧ d'.scope = d.scope := by
  cases h with
  | form h =>
      refine ⟨d, ?_, rfl⟩
      unfold Assignment.perform
      rw [split?_eq_none.mpr h]
      rfl
  | unread hform hread =>
      refine ⟨d, ?_, rfl⟩
      rw [perform_eq hform]
      exact bind_eq_error.mpr (.inl (read_of_error hread))
  | @worthless name source tree e s hform hread hvalue =>
      have hevaluate := evaluate_of_error
        { d with journal := d.journal ++ [.parsed source tree] } hvalue
      refine ⟨⟨d.scope, s, d.journal ++ [.parsed source tree]⟩, ?_, rfl⟩
      rw [perform_eq hform, bind_of_ok (read_of_ok hread)]
      exact bind_eq_error.mpr (.inl hevaluate)

/-- An assignment is good or bad. -/
theorem good_or_bad (limit : Datum) (d : Desk) (text : String) :
    (∃ v d', Good limit d text v d') ∨ ∃ f, Bad limit d text f := by
  cases hsplit : split? text with
  | none => exact Or.inr ⟨_, .form (split?_eq_none.mp hsplit)⟩
  | some parts =>
      have hform := split?_eq_some.mp hsplit
      cases hread : parseUnder d.scope limit parts.2 with
      | error f => exact Or.inr ⟨f, .unread hform hread⟩
      | ok tree =>
          cases hvalue : tree.value Sources.world d.sources with
          | ok x s => exact Or.inl ⟨_, _, .intro hform hread hvalue⟩
          | error e s => exact Or.inr ⟨_, .worthless hform hread hvalue⟩

end Perform

/-! ### One after the other -/

section PerformAll

variable {d d' : Desk} {texts : List String}

/-- Assignments are carried out one after the other. -/
theorem performAll_cons (text : String) (texts : List String) :
    performAll limit (text :: texts) = (do perform limit text; performAll limit texts) :=
  rfl

/-- **All assignments succeed precisely if each is good in its turn.** -/
theorem performAll_eq_ok :
    performAll limit texts d = .ok () d' ↔ ∃ bound, Bound limit d texts bound d' := by
  constructor
  · intro h
    induction texts generalizing d with
    | nil =>
        cases h
        exact ⟨[], .nil _⟩
    | cons text texts ih =>
        rw [performAll_cons] at h
        rcases good_or_bad limit d text with ⟨v, d₁, hgood⟩ | ⟨f, hbad⟩
        · rw [bind_of_ok hgood.perform] at h
          obtain ⟨bound, hbound⟩ := ih h
          exact ⟨v :: bound, .cons hgood hbound⟩
        · obtain ⟨d₁, hrun, -⟩ := hbad.perform
          rw [bind_eq_error.mpr (.inl hrun)] at h
          cases h
  · rintro ⟨bound, hbound⟩
    induction hbound with
    | nil d => rfl
    | cons hgood rest ih =>
        rw [performAll_cons, bind_of_ok hgood.perform]
        exact ih

/-- **Otherwise the first bad one ends the work**, with the variables as those
before it have left them. -/
theorem performAll_eq_error {f : Fault} {scope : Scope} :
    (∃ d', performAll limit texts d = .error f d' ∧ d'.scope = scope) ↔
      ∃ before text after bound d₁, texts = before ++ text :: after ∧
        Bound limit d before bound d₁ ∧ Bad limit d₁ text f ∧ d₁.scope = scope := by
  constructor
  · rintro ⟨d', hrun, hscope⟩
    induction texts generalizing d with
    | nil => cases hrun
    | cons text texts ih =>
        rw [performAll_cons] at hrun
        rcases good_or_bad limit d text with ⟨v, d₁, hgood⟩ | ⟨g, hbad⟩
        · rw [bind_of_ok hgood.perform] at hrun
          obtain ⟨before, last, after, bound, d₂, rfl, hbound, hbad, hscope⟩ := ih hrun
          exact ⟨text :: before, last, after, v :: bound, d₂, rfl, .cons hgood hbound, hbad, hscope⟩
        · obtain ⟨d₁, hfail, hkept⟩ := hbad.perform
          rw [bind_eq_error.mpr (.inl hfail)] at hrun
          cases hrun
          exact ⟨[], text, texts, [], d, rfl, .nil d, hbad, hkept.symm.trans hscope⟩
  · rintro ⟨before, text, after, bound, d₁, rfl, hbound, hbad, hscope⟩
    induction hbound with
    | nil d =>
        obtain ⟨d', hfail, hkept⟩ := hbad.perform
        exact ⟨d', bind_eq_error.mpr (.inl hfail), hkept.trans hscope⟩
    | cons hgood rest ih =>
        obtain ⟨d', hrun, hkept⟩ := ih hbad hscope
        refine ⟨d', ?_, hkept⟩
        rw [List.cons_append, performAll_cons, bind_of_ok hgood.perform]
        exact hrun

end PerformAll

end Assignment

/-! ### What is bound in the end -/

namespace Scope

/-- Binds numbers to names, one after the other. -/
def bindAll (s : Scope) (bound : List (String × Float)) : Scope :=
  bound.foldl (fun s v => s.bind v.1 (.constant 0 v.2)) s

/-- A name has the number that was bound to it last, and otherwise what it had
before. -/
theorem find?_bindAll (s : Scope) (bound : List (String × Float)) (name : String) :
    (s.bindAll bound).find? name =
      ((bound.reverse.lookup name).map (Expr.constant 0)).or (s.find? name) := by
  induction bound generalizing s with
  | nil => rfl
  | cons v bound ih =>
      obtain ⟨other, x⟩ := v
      have hall : (s.bindAll ((other, x) :: bound)).find? name = _ :=
        ih (s.bind other (.constant 0 x))
      rw [hall, List.reverse_cons, List.lookup_append]
      cases bound.reverse.lookup name with
      | some y => rfl
      | none =>
          by_cases hname : name = other
          · subst hname
            rw [List.lookup_cons_self]
            exact find?_bind_self name _ s
          · rw [List.lookup_cons, beq_eq_false_iff_ne.mpr hname]
            exact find?_bind_of_ne hname s _

/-- Names keep their places, and a new one comes behind them. -/
theorem names_bindAll (s : Scope) (bound : List (String × Float)) :
    ∃ added, (s.bindAll bound).names = s.names ++ added ∧
      ∀ name ∈ added, name ∈ bound.map Prod.fst := by
  induction bound generalizing s with
  | nil => exact ⟨[], (List.append_nil _).symm, by simp⟩
  | cons v bound ih =>
      obtain ⟨added, hnames, hadded⟩ := ih (s.bind v.1 (.constant 0 v.2))
      have hall : (s.bindAll (v :: bound)).names = _ := hnames
      rw [names_bind] at hall
      split at hall
      · exact ⟨added, hall, fun name hname => List.mem_cons_of_mem _ (hadded name hname)⟩
      · refine ⟨v.1 :: added, by rw [hall, List.append_assoc, List.singleton_append], ?_⟩
        intro name hname
        rcases List.mem_cons.mp hname with rfl | hname
        · exact List.mem_cons_self
        · exact List.mem_cons_of_mem _ (hadded name hname)

end Scope

namespace Assignment

section Bound

variable {limit : Datum} {d d' : Desk} {texts : List String} {bound : List (String × Float)}

/-- The scope is the one at first with all of them bound, in order. -/
theorem Bound.scope_eq (h : Bound limit d texts bound d') :
    d'.scope = d.scope.bindAll bound := by
  induction h with
  | nil d => rfl
  | cons hgood rest ih =>
      cases hgood with
      | intro hform hread hvalue => exact ih

/-- Numbers are sound, so a sound desk stays so. -/
theorem Bound.sound (h : Bound limit d texts bound d') (hd : d.Sound) : d'.Sound := by
  induction h with
  | nil d => exact hd
  | cons hgood rest ih =>
      apply ih
      cases hgood with
      | intro hform hread hvalue => exact Scope.Sound.bind hd Expr.sound_constant _

/-- What is read on a sound desk has a value, so only its form or its expression
can make an assignment bad. -/
theorem Bad.of_sound {text : String} {f : Fault} (h : Bad limit d text f) (hd : d.Sound) :
    (f = .assignment text ∧ ∀ name source, ¬ Form text name source) ∨
    ∃ name source, Form text name source ∧ parseUnder d.scope limit source = .error f := by
  cases h with
  | form h => exact Or.inl ⟨rfl, h⟩
  | unread hform hread => exact Or.inr ⟨_, _, hform, hread⟩
  | worthless hform hread hvalue =>
      obtain ⟨x, s, hgives, -⟩ := evaluate_eq_value (Session.parseUnder_sound hd hread) d
      exact nomatch hvalue.symm.trans hgives

end Bound

/-- **Assignments are carried out strictly in order, and end with the first bad
one.**  They succeed precisely if each is good on the desk as those before it
have left it.  The first bad one says what is wrong with it, and the variables
are as those before it have left them.  A name that was assigned has the last
number that was assigned to it, every other name what it had before, and new
names come behind the old ones.  Where all trees of the variables are sound,
nothing is bad but a form or an expression. -/
theorem assignments_bind_in_order (limit : Datum) (texts : List String) (d : Desk) :
    (∀ d', performAll limit texts d = .ok () d' ↔ ∃ bound, Bound limit d texts bound d') ∧
    (∀ f scope, (∃ d', performAll limit texts d = .error f d' ∧ d'.scope = scope) ↔
      ∃ before text after bound d₁, texts = before ++ text :: after ∧
        Bound limit d before bound d₁ ∧ Bad limit d₁ text f ∧ d₁.scope = scope) ∧
    (∀ before bound d₁, Bound limit d before bound d₁ →
      d₁.scope = d.scope.bindAll bound ∧
      (∀ name, d₁.scope.find? name =
        ((bound.reverse.lookup name).map (Expr.constant 0)).or (d.scope.find? name)) ∧
      ∃ added, d₁.scope.names = d.scope.names ++ added ∧
        ∀ name ∈ added, name ∈ bound.map Prod.fst) ∧
    (d.Sound → ∀ before bound d₁ text f, Bound limit d before bound d₁ → Bad limit d₁ text f →
      (f = .assignment text ∧ ∀ name source, ¬ Form text name source) ∨
      ∃ name source, Form text name source ∧ parseUnder d₁.scope limit source = .error f) := by
  refine ⟨fun d' => performAll_eq_ok, fun f scope => performAll_eq_error, ?_, ?_⟩
  · intro before bound d₁ hbound
    rw [hbound.scope_eq]
    exact ⟨rfl, d.scope.find?_bindAll bound, d.scope.names_bindAll bound⟩
  · intro hd before bound d₁ text f hbound hbad
    exact hbad.of_sound (hbound.sound hd)

/-- The second of these assignments uses the first, and the third is no
expression. -/
theorem assignments_bind_in_order_pi : ∃ d d₁ bound, d.Sound ∧
    Bound (.ofInt 100) d [" a =pi", "b=a"] bound d₁ ∧
    Bad (.ofInt 100) d₁ "pi=b+" (.parse ⟨.unexpected none, 2⟩) ∧
    (∃ d', performAll (.ofInt 100) [" a =pi", "b=a", "pi=b+"] d =
      .error (.parse ⟨.unexpected none, 2⟩) d' ∧ d'.scope = d₁.scope) ∧
    d₁.scope.find? "b" = some (.constant 0 pi) ∧
    ∃ name source, Form "pi=b+" name source ∧
      parseUnder d₁.scope (.ofInt 100) source = .error (.parse ⟨.unexpected none, 2⟩) := by
  have hforms : Form " a =pi" "a" "pi" ∧ Form "b=a" "b" "a" ∧ Form "pi=b+" "pi" "b+" := by
    simp only [← split?_eq_some]
    decide
  obtain ⟨hfirst, hsecond, hthird⟩ := hforms
  have hpi : parseUnder Scope.seeded (.ofInt 100) "pi" =
      .ok (.reference 0 "pi" (.constant 0 pi)) := by
    have hread : parse Scope.seeded 100 "pi" = .ok (.reference 0 "pi" (.constant 0 pi)) := by
      decide +kernel
    rw [parseUnder_ofInt, hread]
    rfl
  have ha : parseUnder (Scope.seeded.bindAll [("a", pi)]) (.ofInt 100) "a" =
      .ok (.reference 0 "a" (.constant 0 pi)) := by
    have hread : parse (Scope.seeded.bindAll [("a", pi)]) 100 "a" =
        .ok (.reference 0 "a" (.constant 0 pi)) := by
      decide +kernel
    rw [parseUnder_ofInt, hread]
    rfl
  have hb : parseUnder (Scope.seeded.bindAll [("a", pi), ("b", pi)]) (.ofInt 100) "b+" =
      .error (.parse ⟨.unexpected none, 2⟩) := by
    have hread : parse (Scope.seeded.bindAll [("a", pi), ("b", pi)]) 100 "b+" =
        .error ⟨.unexpected none, 2⟩ := by
      decide +kernel
    rw [parseUnder_ofInt, hread]
    rfl
  have hd := Desk.sound_fresh (.fresh fun _ => 0)
  have hbound : Bound (.ofInt 100) (Desk.fresh (.fresh fun _ => 0)) [" a =pi", "b=a"] _ _ :=
    .cons (.intro hfirst hpi rfl) (.cons (.intro hsecond ha rfl) (.nil _))
  have hall := assignments_bind_in_order (.ofInt 100) [" a =pi", "b=a", "pi=b+"]
    (Desk.fresh (.fresh fun _ => 0))
  have hbad := hall.2.2.2 hd _ _ _ "pi=b+" (.parse ⟨.unexpected none, 2⟩) hbound
    (.unread hthird hb)
  refine ⟨_, _, _, hd, hbound, .unread hthird hb,
    (hall.2.1 _ _).mpr ⟨_, _, [], _, _, rfl, hbound, .unread hthird hb, rfl⟩,
    (hall.2.2.1 _ _ _ hbound).2.1 "b", ?_⟩
  rcases hbad with ⟨hform, -⟩ | hunread
  · cases hform
  · exact hunread

/-- A variable can be bound to a node without meaning; then an assignment of
good form, with an expression that can be read, is not carried out. -/
theorem bare_variable_is_not_assigned : Form "y=x" "y" "x" ∧
    parseUnder (Scope.seeded.bind "x" (.bare 0)) (.ofInt 100) "x" =
      .ok (.reference 0 "x" (.bare 0)) ∧
    ∃ d', performAll (.ofInt 100) ["y=x"]
        ⟨Scope.seeded.bind "x" (.bare 0), .fresh fun _ => 0, []⟩ =
      .error (.evaluation .bareNode) d' ∧ d'.scope = Scope.seeded.bind "x" (.bare 0) := by
  have hform : Form "y=x" "y" "x" := split?_eq_some.mp (by decide)
  have hread : parse (Scope.seeded.bind "x" (.bare 0)) 100 "x" =
      .ok (.reference 0 "x" (.bare 0)) := by
    decide +kernel
  have hunder : parseUnder (Scope.seeded.bind "x" (.bare 0)) (.ofInt 100) "x" =
      .ok (.reference 0 "x" (.bare 0)) := by
    rw [parseUnder_ofInt, hread]
    rfl
  exact ⟨hform, hunder, performAll_eq_error.mpr
    ⟨[], "y=x", [], [], _, rfl, .nil _, .worthless hform hunder rfl, rfl⟩⟩

end Assignment

end Reckon
