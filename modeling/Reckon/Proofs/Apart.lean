import Reckon.Proofs.Draws
import Reckon.Proofs.Requests
/-!
# Trees apart

In a world whose sources are separate (`World.Separates`) an evaluation has to
do with the sources of its leaves only: it leaves every other source as it is
(`Expr.value_keeps`), and wherever its own sources are the same it comes to the
same (`Expr.value_respects`).  So trees that share no source are evaluated as if
the other was not (`outcome_after`), and what is bound, read or evaluated in a
session has no part in a tree that it keeps, as long as no tree is evaluated
that shares a source with it (`Session.outcome_after`).
-/

namespace Reckon

/-! ### Separate sources -/

/-- The sources of the impure leaves of a tree. -/
def Expr.sources (e : Expr) : List Source :=
  e.impure.map Call.source

/-- Two trees share no impure leaf. -/
def Expr.Apart (e f : Expr) : Prop :=
  ∀ source ∈ e.sources, source ∉ f.sources

section Separate

variable {ε σ : Type} {w : World ε σ} {same : Source → σ → σ → Prop}

/-- The sources of a world are separate: a call does the same wherever its
source is the same, and leaves all others the same.  When a source is the same
in two states is for the world to say. -/
structure World.Separates (w : World ε σ) (same : Source → σ → σ → Prop) : Prop where
  equivalence : ∀ source, Equivalence (same source)
  respects : ∀ call, Respects (same call.source) (w.answer call) fun _ => True
  keeps : ∀ call source, source ≠ call.source →
    ∀ s, Keeps (same source s) (w.answer call) fun _ => True

/-- Two states are alike in some sources. -/
def AlikeIn (same : Source → σ → σ → Prop) (sources : List Source) (s t : σ) : Prop :=
  ∀ source ∈ sources, same source s t

/-- A call to one of the sources goes abreast wherever all of them are alike. -/
theorem World.Separates.answer_respects (h : w.Separates same) {sources : List Source}
    (call : Call) (hcall : call.source ∈ sources) :
    Respects (AlikeIn same sources) (w.answer call) fun _ => True := by
  intro s t hst
  have hmatched := h.respects call s t (hst _ hcall)
  -- where another source stands after the call, on either side
  have hother : ∀ source, source ≠ call.source →
      ∀ u, same source u (stateOf (w.answer call u)) := fun source hne u =>
    (h.keeps call source hne u).stateOf ((h.equivalence source).refl u)
  cases hs : w.answer call s with
  | error e s' =>
      rw [hs] at hmatched
      obtain ⟨f, t', ht, rfl⟩ := hmatched.of_error
      rw [ht]
      exact rfl
  | ok x s' =>
      rw [hs] at hmatched
      obtain ⟨y, t', ht, rfl, -, hsame⟩ := hmatched.of_ok
      rw [ht]
      refine ⟨rfl, trivial, fun source hsource => ?_⟩
      by_cases hne : source = call.source
      · rw [hne]
        exact hsame
      · have hs' := hother source hne s
        have ht' := hother source hne t
        rw [hs] at hs'
        rw [ht] at ht'
        have heq := h.equivalence source
        exact heq.trans (heq.symm hs') (heq.trans (hst source hsource) ht')

/-- **An evaluation leaves every other source as it is**, on failure too. -/
theorem Expr.value_keeps (h : w.Separates same) {e : Expr} {source : Source}
    (hsource : source ∉ e.sources) (s : σ) :
    Keeps (same source s) (e.value w) fun _ => True := by
  refine value_closed w (fun x hx => hx.keeps) (fun x f hx hf => hx.bind fun a _ => hf a) ?_
  intro call hcall
  apply h.keeps call source
  rintro rfl
  exact hsource (List.mem_map_of_mem hcall)

/-- **An evaluation comes to the same** wherever its own sources are the same. -/
theorem Expr.value_respects (h : w.Separates same) (e : Expr) :
    Respects (AlikeIn same e.sources) (e.value w) fun _ => True := by
  refine value_closed w (fun x hx => hx.respects) (fun x f hx hf => hx.bind fun a _ => hf a) ?_
  intro call hcall
  exact h.answer_respects call (List.mem_map_of_mem hcall)

/-- **Trees apart are evaluated as if the other was not.** -/
theorem outcome_after (h : w.Separates same) {e f : Expr} (hapart : e.Apart f) (s : σ) :
    outcome (f.value w (stateOf (e.value w s))) = outcome (f.value w s) := by
  have halike : AlikeIn same f.sources (stateOf (e.value w s)) s := by
    intro source hsource
    have hnot : source ∉ e.sources := fun hmem => hapart source hmem hsource
    have heq := h.equivalence source
    exact heq.symm ((Expr.value_keeps h hnot s).stateOf (heq.refl s))
  exact (f.value_respects h).outcome_eq halike

end Separate

/-! ### The sources of the machine -/

namespace Sources

/-- A source will answer the same in two states. -/
def Same : Source → Sources → Sources → Prop
  | .supplier identity, s, t => s.timesAsked identity = t.timesAsked identity
  | .random, s, t => s.DrawAlike t

theorem same_equivalence (source : Source) : Equivalence (Same source) := by
  cases source with
  | supplier identity => exact ⟨fun s => rfl, Eq.symm, Eq.trans⟩
  | random => exact ⟨fun s n => rfl, fun h n => (h n).symm, fun h h' n => (h n).trans (h' n)⟩

/-- To ask a supplier has no part in any other source. -/
theorem Same.asking {source : Source} {supplier : Supplier} {s t : Sources}
    (hst : Same source s t) (hne : source ≠ .supplier supplier.identity) :
    Same source s (t.asking supplier) := by
  cases source with
  | random => exact hst
  | supplier identity =>
      have huses := uses_asking supplier t (.supplier identity)
      rw [if_neg (Ne.symm hne)] at huses
      exact Eq.trans hst huses.symm

theorem world_separates : Sources.world.Separates Same where
  equivalence := same_equivalence
  respects call := by
    cases call with
    | random => exact draw_respects
    | supplier supplier =>
        intro s t hst
        have htimes : s.timesAsked supplier.identity = t.timesAsked supplier.identity := hst
        rw [World.answer, ask_eq, ask_eq, htimes]
        cases (supplier.answer (t.timesAsked supplier.identity)).toDouble? with
        | none => exact rfl
        | some x =>
            have hs := uses_asking supplier s (.supplier supplier.identity)
            have ht := uses_asking supplier t (.supplier supplier.identity)
            refine ⟨rfl, trivial, hs.trans (Eq.trans ?_ ht.symm)⟩
            exact congrArg (· + _) htimes
  keeps call source hne s := by
    intro t hst
    cases call with
    | random =>
        cases source with
        | supplier identity => exact ⟨hst, trivial⟩
        | random => exact absurd rfl hne
    | supplier supplier =>
        rw [World.answer, ask_eq]
        cases (supplier.answer (t.timesAsked supplier.identity)).toDouble? with
        | none => exact hst.asking hne
        | some x => exact ⟨hst.asking hne, trivial⟩

end Sources

/-! ### Sessions -/

namespace Session

/-- A session keeps a tree under a name, and the sources of the tree are the
same as among others. -/
structure Holds (name : String) (read : ReadTree) (sources : Sources) (s : Session) : Prop where
  tree : Association.get? name s.trees = some read
  same : AlikeIn Sources.Same read.tree.sources sources s.sources

/-- A step spares a tree that is kept under a name: it reads no other tree under
that name, and evaluates none that shares a source with it. -/
def Spares (name : String) (tree : Expr) (s : Session) : Step → Prop
  | .parse _ other => other ≠ name
  | .eval other => ∀ read, Association.get? other s.trees = some read → read.tree.Apart tree
  | _ => True

/-- All steps of a run spare a tree. -/
def SparesAll (name : String) (tree : Expr) : Session → List Step → Prop
  | _, [] => True
  | s, step :: steps => s.Spares name tree step ∧ (s.next step).SparesAll name tree steps

section Looking

variable {I : Session → Prop}

theorem scopeOf_keeps (target : Target) : Keeps I (scopeOf target) fun _ => True :=
  Keeps.get.bind fun _ _ => (placeOf_keeps target).bind fun _ _ => .pure trivial

theorem lift_keeps {ε α : Type} (toFault : ε → Fault) (r : Except ε α) :
    Keeps I (lift toFault r) fun _ => True := by
  cases r with
  | ok a => exact .pure trivial
  | error e => exact .throw _

/-- Steps that look at a session and change nothing. -/
def Step.Looks : Step → Prop
  | .find .. | .resolve .. | .names _ | .size _ | .describe _ | .contains .. | .source _
  | .alike .. | .calls _ => True
  | .newScope _ | .newReader .. | .assign .. | .parse .. | .eval _ => False

theorem keeps_of_looks {step : Step} (h : step.Looks) :
    Keeps I (Session.step step) fun _ => True := by
  cases step with
  | find target name | names target | size target | describe target =>
      exact (scopeOf_keeps target).bind fun _ _ => .pure trivial
  | resolve target name position =>
      exact (scopeOf_keeps target).bind fun _ _ => (lift_keeps _ _).bind fun _ _ => .pure trivial
  | contains target key =>
      refine (scopeOf_keeps target).bind fun scope _ => ?_
      cases key with
      | scalar key => exact .pure trivial
      | list | mapping | supplier | tree => exact .throw _
  | source reader =>
      exact Keeps.get.bind fun _ _ => (kept_keeps reader _).bind fun _ _ => .pure trivial
  | alike a b =>
      refine Keeps.get.bind fun _ _ => (kept_keeps a _).bind fun _ _ => ?_
      exact (kept_keeps b _).bind fun _ _ => .pure trivial
  | calls name => exact Keeps.get.bind fun _ _ => .pure trivial
  | newScope | newReader | assign | parse | eval => exact h.elim

end Looking

variable {name : String} {read : ReadTree} {sources : Sources}

/-- Only what is done to the trees and to the sources can reach a kept tree. -/
theorem Holds.of_eq {s s' : Session} (h : s.Holds name read sources) (htrees : s'.trees = s.trees)
    (hsources : s'.sources = s.sources) : s'.Holds name read sources := by
  refine ⟨?_, ?_⟩
  · rw [htrees]
    exact h.tree
  · rw [hsources]
    exact h.same

/-- Work on a session leaves a kept tree as it is. -/
abbrev Passes (name : String) (read : ReadTree) (sources : Sources) {α : Type}
    (work : Working α) : Prop :=
  Keeps (Holds name read sources) work fun _ => True

theorem addScope_passes : Passes name read sources addScope :=
  .modifyGet fun _ hs => hs.of_eq rfl rfl

theorem offerOf_passes (offered : String) (value : Value) :
    Passes name read sources (offerOf offered value) := by
  cases value with
  | tree id =>
      exact Keeps.get.bind fun s _ => (kept_keeps id _).bind fun _ _ => .pure trivial
  | new d =>
      cases d with
      | supplier supplier =>
          refine (Keeps.modify fun s hs => hs.of_eq rfl rfl).bind fun _ _ => .pure trivial
      | scalar | list | mapping | tree => exact .pure trivial

theorem bindAt_passes (place : Nat) (bound : String) (value : Datum) (origin : Origin) :
    Passes name read sources (bindAt place bound value origin) :=
  Keeps.get.bind fun _ hs => (lift_keeps _ _).bind fun _ _ => .set (hs.of_eq rfl rfl)

/-- A tree that is kept under another name takes nobody's place. -/
theorem parse_passes (reader : String) {other : String} (hne : other ≠ name) :
    Passes name read sources (Session.step (.parse reader other)) := by
  refine Keeps.get.bind fun s _ => (kept_keeps reader _).bind fun _ _ => ?_
  refine (lift_keeps _ _).bind fun tree _ => (Keeps.modify fun s hs => ?_).bind fun _ _ => ?_
  · refine ⟨?_, hs.same⟩
    rw [Association.get?_put_of_ne (Ne.symm hne)]
    exact hs.tree
  · exact .pure trivial

theorem next_eq (s : Session) (step : Step) : s.next step = stateOf (Session.step step s) := by
  unfold next
  cases Session.step step s <;> rfl

/-- To evaluate a kept tree is to evaluate it with the sources of the session. -/
theorem step_eval {s : Session} {other : String} {read : ReadTree}
    (h : Association.get? other s.trees = some read) :
    Session.step (.eval other) s =
      match evaluate read.tree s.sources with
      | .ok x sources => .ok (.value x) { s with sources := sources }
      | .error e sources => .error (.fault (.evaluation e)) { s with sources := sources } := by
  have hkept : (kept other s.trees : Working ReadTree) s = .ok read s := by
    rw [kept, h]
    rfl
  refine (bind_of_ok rfl _).trans ((bind_of_ok hkept _).trans ?_)
  cases evaluate read.tree s.sources <;> rfl

/-- What evaluating a kept tree answers is what the tree comes to. -/
theorem outcome_step_eval {s : Session} {other : String} {read : ReadTree}
    (h : Association.get? other s.trees = some read) :
    outcome (Session.step (.eval other) s) =
      ((outcome (evaluate read.tree s.sources)).mapError fun e => .fault (.evaluation e)).map
        .value := by
  rw [step_eval h]
  cases evaluate read.tree s.sources <;> rfl

/-- An evaluation leaves the sources that its tree does not share. -/
theorem Holds.next_eval {s : Session} (h : s.Holds name read sources) {other : String}
    (hspares : s.Spares name read.tree (.eval other)) :
    (s.next (.eval other)).Holds name read sources := by
  cases hother : Association.get? other s.trees with
  | none =>
      have hunknown : Session.step (.eval other) s = .error (.unknown other) s := by
        refine (bind_of_ok rfl _).trans (bind_eq_error.mpr (.inl ?_))
        rw [kept, hother]
        rfl
      rw [next_eq, hunknown]
      exact h
  | some kept =>
      have hstate : s.next (.eval other) =
          { s with sources := stateOf (kept.tree.value Sources.world s.sources) } := by
        rw [next_eq, step_eval hother, evaluate, evaluateIn_eq_value]
        cases kept.tree.value Sources.world s.sources <;> rfl
      rw [hstate]
      refine ⟨h.tree, fun source hsource => ?_⟩
      have hnot : source ∉ kept.tree.sources := fun hmem => hspares kept hother source hmem hsource
      have heq := Sources.same_equivalence source
      have hkept := Expr.value_keeps Sources.world_separates hnot s.sources
      exact heq.trans (h.same source hsource) (hkept.stateOf (heq.refl _))

/-- **A step that spares a tree leaves it as it is**, with its sources. -/
theorem Holds.next {s : Session} (h : s.Holds name read sources) {step : Step}
    (hspares : s.Spares name read.tree step) : (s.next step).Holds name read sources := by
  have hkeeps : ∀ step, Passes name read sources (Session.step step) →
      (s.next step).Holds name read sources := by
    intro step hwork
    rw [next_eq]
    exact hwork.stateOf h
  cases step with
  | eval other => exact h.next_eval hspares
  | parse reader other => exact hkeeps _ (parse_passes reader hspares)
  | newScope scope =>
      refine hkeeps _ (addScope_passes.bind fun place _ => ?_)
      exact (Keeps.modify fun s hs => hs.of_eq rfl rfl).bind fun _ _ => .pure trivial
  | newReader reader source scope limit =>
      have hnote : ∀ place, Passes name read sources (do
          modify fun s =>
            { s with readers := Association.put reader ⟨source, limit, place⟩ s.readers }
          return Reply.done) := fun place =>
        (Keeps.modify fun s hs => hs.of_eq rfl rfl).bind fun _ _ => .pure trivial
      refine hkeeps _ ?_
      cases scope with
      | some shared => exact (placeOf_keeps _).bind fun place _ => hnote place
      | none => exact addScope_passes.bind fun place _ => hnote place
  | assign target bound value =>
      refine hkeeps _ ((placeOf_keeps target).bind fun place _ => ?_)
      refine (offerOf_passes bound value).bind fun offer _ => ?_
      exact (bindAt_passes place bound _ _).bind fun _ _ => .pure trivial
  | find | resolve | names | size | describe | contains | source | alike | calls =>
      exact hkeeps _ (keeps_of_looks trivial)

/-- A run that spares a tree leaves it as it is, with its sources. -/
theorem Holds.after {steps : List Step} : ∀ {s : Session}, s.Holds name read sources →
    s.SparesAll name read.tree steps → (s.after steps).Holds name read sources := by
  induction steps with
  | nil => exact fun h _ => h
  | cons step steps ih => exact fun h hspares => ih (h.next hspares.1) hspares.2

/-- A run spares a tree without impure leaves as long as it reads no other tree
under its name. -/
theorem sparesAll_of_impure {tree : Expr} (h : tree.impure = []) {steps : List Step}
    (hsteps : ∀ step ∈ steps, ∀ reader, step ≠ .parse reader name) :
    ∀ s : Session, s.SparesAll name tree steps := by
  induction steps with
  | nil => exact fun s => trivial
  | cons step steps ih =>
      intro s
      obtain ⟨hstep, hrest⟩ := List.forall_mem_cons.mp hsteps
      refine ⟨?_, ih hrest _⟩
      cases step with
      | parse reader other => exact fun hsame => hstep reader (hsame ▸ rfl)
      | eval other =>
          intro read _ source _ hmem
          rw [Expr.sources, h] at hmem
          cases hmem
      | _ => trivial

/-- **A tree that a run spares comes to the same behind it.** -/
theorem outcome_after {s : Session} {steps : List Step}
    (h : Association.get? name s.trees = some read) (hspares : s.SparesAll name read.tree steps) :
    outcome (Session.step (.eval name) (s.after steps)) =
      outcome (Session.step (.eval name) s) := by
  have hstart : s.Holds name read s.sources :=
    ⟨h, fun source _ => (Sources.same_equivalence source).refl _⟩
  have hend := hstart.after hspares
  have hrespects := read.tree.value_respects Sources.world_separates
  rw [outcome_step_eval hend.tree, outcome_step_eval h, evaluate, evaluateIn_eq_value,
    hrespects.outcome_eq hend.same]

end Session

/-! ### Drawing in order -/

/-- How a tree that has a value draws its impure leaves. -/
structure World.Draws {ε σ : Type} (w : World ε σ) (e : Expr) (x : Float) (s s' : σ) : Prop where
  /-- Each is asked once, from left to right, and nothing else is. -/
  recorded : ∀ calls, evaluateIn w.recorded e (s, calls) = .ok x (s', calls ++ e.impure)
  /-- What they draw leads to the state that is left, and with it in their place
  the tree has no impure leaf, and the same value in every world with the same
  elementary functions. -/
  drawn : ∃ xs, xs.length = e.impure.length ∧ e.impure.mapM w.answer s = .ok xs s' ∧
    (e.pinned xs).impure = [] ∧ ∀ {ε' σ' : Type} (v : World ε' σ'),
      v.elementary = w.elementary → ∀ t, evaluateIn v (e.pinned xs) t = .ok x t

/-- **Impure leaves are drawn once for each occurrence, from left to right.**
A tree that has a value is worth what it is with the drawn numbers in place of
its leaves; without impure leaves it comes to the same in every state.  An
evaluation leaves all sources but its own as they are, so trees that share none
have no part in each other, whatever a session does in between.  And the sources
of the machine are separate, and number their answers. -/
theorem impure_leaves_drawn_in_order {ε σ : Type} (w : World ε σ) :
    (∀ (e : Expr) (x : Float) (s s' : σ), evaluateIn w e s = .ok x s' → w.Draws e x s s') ∧
    (∀ e : Expr, e.impure = [] → Fixed (evaluateIn w e)) ∧
    (∀ same, w.Separates same → ∀ (e : Expr) (s : σ),
      (∀ source, source ∉ e.sources → same source s (stateOf (evaluateIn w e s))) ∧
      ∀ f : Expr, e.Apart f → outcome (evaluateIn w f (stateOf (evaluateIn w e s))) =
        outcome (evaluateIn w f s)) ∧
    Sources.world.Separates Sources.Same ∧
    (∀ (calls : List Call) (xs : List Float) (s s' : Sources),
      calls.mapM Sources.world.answer s = .ok xs s' → Sources.Answered calls xs s s') ∧
    (∀ (s : Session) (name : String) (read : ReadTree) (steps : List Session.Step),
      Association.get? name s.trees = some read →
      (s.SparesAll name read.tree steps ∨
        read.tree.impure = [] ∧ ∀ step ∈ steps, ∀ reader, step ≠ .parse reader name) →
      outcome (Session.step (.eval name) (s.after steps)) =
        outcome (Session.step (.eval name) s)) := by
  refine ⟨?_, ?_, ?_, Sources.world_separates, fun calls xs s s' => Sources.answered, ?_⟩
  · intro e x s s' h
    rw [evaluateIn_eq_value] at h
    obtain ⟨xs, hlength, hdrawn, hvalue⟩ := Expr.value_drawn h
    refine ⟨fun calls => ?_, xs, hlength, hdrawn, Expr.impure_pinned hlength.ge, ?_⟩
    · rw [evaluateIn_eq_value]
      exact Expr.value_recorded h calls
    · intro ε' σ' v hv t
      rw [evaluateIn_eq_value]
      exact hvalue v hv t
  · intro e h
    rw [evaluateIn_eq_value]
    exact Expr.value_fixed w h
  · intro same hsame e s
    rw [evaluateIn_eq_value]
    refine ⟨fun source hnot => ?_, fun f hapart => ?_⟩
    · exact (Expr.value_keeps hsame hnot s).stateOf ((hsame.equivalence source).refl s)
    · rw [evaluateIn_eq_value]
      exact outcome_after hsame hapart s
  · rintro s name read steps hread (hspares | ⟨hpure, hsteps⟩)
    · exact Session.outcome_after hread hspares
    · exact Session.outcome_after hread (Session.sparesAll_of_impure hpure hsteps s)

/-- A variable that asks a supplier, twice, once in a variable of its own, and a
random number between the two. -/
def mixedLeaves : Expr :=
  let asked := .reference 0 "x" (.supplied (-1) ⟨0, .integer 3, [.integer 5]⟩ "x")
  .binary 2 "-" asked (.binary 13 "*" (.method 4 "random") (.reference 15 "y" asked))

/-- A session with that tree and one that asks another supplier. -/
def mixedSession : Session :=
  { Session.fresh (.fresh fun _ => 0.5) with trees := [("t", ⟨mixedLeaves, .nowhere⟩),
      ("u", ⟨.supplied (-1) ⟨1, .integer 7, []⟩ "z", .nowhere⟩)] }

/-- A tree that asks a supplier twice and draws in between, and a tree beside
it. -/
theorem impure_leaves_drawn_in_order_mixed :
    (∃ x s' xs, evaluate mixedLeaves (.fresh fun _ => 0.5) = .ok x s' ∧
      s'.timesAsked 0 = 2 ∧ s'.timesAsked 1 = 0 ∧ s'.drawn = 1 ∧
      ∀ t, evaluate (mixedLeaves.pinned xs) t = .ok x t) ∧
    outcome (Session.step (.eval "u") (mixedSession.after [.eval "t"])) =
      outcome (Session.step (.eval "u") mixedSession) := by
  obtain ⟨hdraws, -, -, -, hanswered, hsession⟩ := impure_leaves_drawn_in_order Sources.world
  constructor
  · have hsupplier : (⟨0, .integer 3, [.integer 5]⟩ : Supplier).Convertible := by
      simp only [Supplier.Convertible, List.mem_cons, List.not_mem_nil, or_false, forall_eq_or_imp,
        forall_eq]
      decide +kernel
    have hsound : mixedLeaves.Sound Sources.world.Answers := by
      simp [mixedLeaves, hsupplier.answers]
      decide
    obtain ⟨x, s', hvalue⟩ := hsound.gives Sources.draw_gives (.fresh fun _ => 0.5)
    have heval : evaluate mixedLeaves (.fresh fun _ => 0.5) = .ok x s' := by
      rw [evaluate, evaluateIn_eq_value]
      exact hvalue
    obtain ⟨xs, -, hdrawn, -, hpinned⟩ := (hdraws _ _ _ _ heval).drawn
    have huses := (hanswered _ _ _ _ hdrawn).uses
    exact ⟨x, s', xs, heval, huses (.supplier 0), huses (.supplier 1), huses .random,
      hpinned Sources.world rfl⟩
  · refine hsession mixedSession "u" _ [.eval "t"] rfl (.inl ⟨fun read hread => ?_, trivial⟩)
    cases hread
    show ∀ source ∈ _, source ∉ _
    decide

end Reckon
