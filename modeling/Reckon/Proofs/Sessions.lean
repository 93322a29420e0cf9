import Reckon.Proofs.Range
import Reckon.Proofs.Soundness
import Reckon.Session
/-!
# Sessions keep their trees sound

In a session trees are kept in two places: as the variables of scopes, and
under names of their own.  If nothing but numbers, suppliers that answer and
trees of the session itself is bound, all of these stay sound (`Session.Sound`):
a step keeps them so, and what it answers is sound too (`step_upholds`).  Hence
every tree that a session ever reads has a value.
-/

namespace Reckon

variable {P : Supplier → Prop}

/-! ### What is kept -/

/-- Putting a value keeps what all values have in common. -/
theorem Association.forall_put {κ υ : Type} [BEq κ] {Q : υ → Prop} {k : κ} {v : υ} (hv : Q v) :
    ∀ {entries : List (κ × υ)}, (∀ entry ∈ entries, Q entry.2) →
      ∀ entry ∈ put k v entries, Q entry.2 := by
  intro entries
  induction entries with
  | nil => simpa [put] using hv
  | cons entry rest ih =>
      intro h
      obtain ⟨hfirst, hrest⟩ := List.forall_mem_cons.mp h
      rw [put]
      split
      · exact List.forall_mem_cons.mpr ⟨hv, hrest⟩
      · exact List.forall_mem_cons.mpr ⟨hfirst, ih hrest⟩

namespace Session

/-- Every variable and every tree of a session is sound. -/
structure Sound (P : Supplier → Prop) (s : Session) : Prop where
  scopes : ∀ w ∈ s.scopes, w.scope.Sound P
  trees : ∀ entry ∈ s.trees, entry.2.tree.Sound P

/-- What may be bound: a tree of the session, or anything new but a tree, and
of suppliers those in question. -/
def Value.Admissible (P : Supplier → Prop) : Value → Prop
  | .tree _ => True
  | .new (.tree _) => False
  | .new (.supplier supplier) => P supplier
  | .new _ => True

/-- A step binds nothing that may not be bound. -/
def Step.Admissible (P : Supplier → Prop) : Step → Prop
  | .assign _ _ value => value.Admissible P
  | _ => True

/-- A tree that is answered is sound. -/
def Reply.Sound (P : Supplier → Prop) : Reply → Prop
  | .tree (some e) => e.Sound P
  | _ => True

/-- The session after a step, which it may change on failure too. -/
def next (s : Session) (step : Step) : Session :=
  match Session.step step s with
  | .ok _ s' | .error _ s' => s'

/-- The session after some steps. -/
def after (s : Session) (steps : List Step) : Session :=
  steps.foldl next s

/-- A new session has no trees. -/
theorem sound_fresh (sources : Sources) : (fresh sources).Sound P :=
  ⟨by simp [fresh], by simp [fresh]⟩

/-- The constants of a new scope are sound. -/
theorem sound_seeded : seeded.scope.Sound P := by
  simp [seeded, Scope.Sound, Scope.seeded]

/-- Work on a session keeps its trees sound, and its answer has a property. -/
abbrev Upholds {α : Type} (P : Supplier → Prop) (work : Working α) (Q : α → Prop) : Prop :=
  Keeps (Session.Sound P) work Q

/-- The scope at any place is sound, a new one if there is none. -/
theorem Sound.scopeAt {s : Session} (h : s.Sound P) (place : Nat) :
    (s.scopeAt place).scope.Sound P := by
  rw [Session.scopeAt, List.getD_eq_getElem?_getD]
  cases hplace : s.scopes[place]? with
  | none => exact sound_seeded
  | some w => exact h.scopes w (List.mem_of_getElem? hplace)

/-! ### The parts of steps -/

/-- An entry that is looked up has what all entries have. -/
theorem kept_upholds {α : Type} (name : String) {entries : List (String × α)} {Q : α → Prop}
    (h : ∀ entry ∈ entries, Q entry.2) : Upholds P (kept name entries) Q := by
  unfold kept
  cases hget : Association.get? name entries with
  | none => exact Keeps.throw _
  | some a =>
      obtain ⟨k, hmem⟩ := Association.mem_of_get? hget
      exact Keeps.pure (h _ hmem)

/-- To look for a name leaves the session as it is. -/
theorem kept_keeps {I : Session → Prop} {α : Type} (name : String) (entries : List (String × α)) :
    Keeps I (kept name entries) fun _ => True := by
  unfold kept
  split
  · exact Keeps.pure trivial
  · exact Keeps.throw _

/-- To look up a place leaves the session as it is. -/
theorem placeOf_keeps {I : Session → Prop} (target : Target) :
    Keeps I (placeOf target) fun _ => True := by
  refine Keeps.get.bind fun s _ => ?_
  cases target with
  | scope name => exact kept_keeps name _
  | reader name => exact (kept_keeps name _).bind fun _ _ => Keeps.pure trivial

/-- The scope of a target is sound. -/
theorem scopeOf_upholds (target : Target) :
    Upholds P (scopeOf target) fun scope => scope.Sound P := by
  refine Keeps.get.bind fun s hs => (placeOf_keeps target).bind fun place _ => ?_
  exact Keeps.pure (hs.scopeAt place)

/-- A new scope is sound. -/
theorem addScope_upholds : Upholds P addScope fun _ => True := by
  refine Keeps.modifyGet fun s hs => ⟨?_, hs.trees⟩
  intro w hw
  rcases List.mem_append.mp hw with hold | hnew
  · exact hs.scopes w hold
  · obtain rfl := List.mem_singleton.mp hnew
    exact sound_seeded

/-- A result that is taken over leaves the session alone. -/
theorem lift_upholds {ε α : Type} {toFault : ε → Fault} {r : Except ε α} {Q : α → Prop}
    (h : ∀ a, r = .ok a → Q a) : Upholds P (lift toFault r) Q := by
  cases r with
  | ok a => exact Keeps.pure (h a rfl)
  | error e => exact Keeps.throw _

/-- A datum that is offered stands for a sound tree. -/
def Offers (P : Supplier → Prop) (d : Datum) : Prop :=
  ∀ label e, d.producer label = .ok e → e.Sound P

/-- A sound tree may be offered. -/
theorem offers_tree {e : Expr} (h : e.Sound P) : Offers P (.tree e) := by
  intro label e' he
  cases e <;> cases he <;> exact h

/-- A new value that may be bound may be offered. -/
theorem offers_new {d : Datum} (h : (Value.new d).Admissible P) : Offers P d := by
  intro label e he
  cases d with
  | tree e' => exact absurd h id
  | supplier supplier =>
      cases he
      exact Expr.sound_supplied.mpr h
  | list | mapping => cases he
  | scalar value =>
      cases value with
      | number n =>
          cases hn : n.toDouble? with
          | none =>
              rw [Datum.producer, hn] at he
              cases he
          | some x =>
              rw [Datum.producer, hn] at he
              cases he
              exact Expr.sound_constant
      | nothing | boolean | text | illFormed | moment | foreign => cases he


/-- What is offered for a value that may be bound stands for a sound tree. -/
theorem offerOf_upholds (name : String) {value : Value} (h : value.Admissible P) :
    Upholds P (offerOf name value) fun offer => Offers P offer.1 := by
  cases value with
  | tree id =>
      refine Keeps.get.bind fun s hs => ?_
      have hread : Upholds P (kept id s.trees) fun read => read.tree.Sound P :=
        kept_upholds id hs.trees
      exact hread.bind fun read hsound => Keeps.pure (offers_tree hsound)
  | new d =>
      have hoffer := offers_new h
      cases d with
      | supplier supplier =>
          refine (Keeps.modify fun s hs => ?_).bind fun _ _ => Keeps.pure hoffer
          exact ⟨hs.scopes, hs.trees⟩
      | scalar | list | mapping | tree => exact Keeps.pure hoffer

/-- To bind what may be offered keeps the scopes sound. -/
theorem bindAt_upholds (place : Nat) (name : String) {value : Datum} (h : Offers P value)
    (origin : Origin) : Upholds P (bindAt place name value origin) fun _ => True := by
  refine Keeps.get.bind fun s hs => ?_
  have hassign : ∀ scope, (s.scopeAt place).scope.assign name value = .ok scope →
      scope.Sound P := by
    intro scope hscope
    cases hproducer : value.producer (.text name) with
    | error refusal =>
        rw [Scope.assign, hproducer] at hscope
        cases hscope
    | ok e =>
        rw [Scope.assign, hproducer] at hscope
        cases hscope
        exact Association.forall_put (h _ _ hproducer) (hs.scopeAt place)
  refine (lift_upholds hassign).bind fun scope hscope => Keeps.set ⟨?_, hs.trees⟩
  intro w hw
  rcases List.mem_or_eq_of_mem_set hw with hold | rfl
  · exact hs.scopes w hold
  · exact hscope

/-- What is read in a sound scope is sound, under any limit. -/
theorem parseUnder_sound {scope : Scope} (h : scope.Sound P) {limit : Datum} {source : String}
    {tree : Expr} (hread : parseUnder scope limit source = .ok tree) : tree.Sound P := by
  unfold parseUnder at hread
  cases hparse : parse scope (limit.levels source.length) source with
  | error e =>
      rw [hparse] at hread
      cases hread
  | ok tree' =>
      rw [hparse] at hread
      cases hread
      exact sound_of_parse h hparse

/-- **A step keeps every tree sound**, on failure too, and answers with sound
trees only. -/
theorem step_upholds {step : Step} (h : step.Admissible P) :
    Upholds P (Session.step step) (Reply.Sound P) := by
  cases step with
  | newScope name =>
      refine addScope_upholds.bind fun place _ => (Keeps.modify fun s hs => ?_).bind fun _ _ => ?_
      · exact ⟨hs.scopes, hs.trees⟩
      · exact Keeps.pure trivial
  | newReader name source scope limit =>
      have hnote : ∀ place, Upholds P (do
          modify fun s =>
            { s with readers := Association.put name ⟨source, limit, place⟩ s.readers }
          return Reply.done) (Reply.Sound P) :=
        fun place => (Keeps.modify fun s hs => ⟨hs.scopes, hs.trees⟩).bind fun _ _ =>
          Keeps.pure trivial
      cases scope with
      | some shared => exact (placeOf_keeps _).bind fun place _ => hnote place
      | none => exact addScope_upholds.bind fun place _ => hnote place
  | assign target name value =>
      refine (placeOf_keeps target).bind fun place _ => (offerOf_upholds name h).bind ?_
      intro offer hoffer
      exact (bindAt_upholds place name hoffer _).bind fun _ _ => Keeps.pure trivial
  | find target name =>
      refine (scopeOf_upholds target).bind fun scope hscope => Keeps.pure ?_
      cases hfind : scope.find? name with
      | none => trivial
      | some e => exact hscope.find? hfind
  | resolve target name position =>
      refine (scopeOf_upholds target).bind fun scope hscope => ?_
      have hresolve : ∀ e, scope.resolve name position = .ok e → e.Sound P := by
        intro e he
        unfold Scope.resolve at he
        cases hfind : scope.find? name with
        | none =>
            rw [hfind] at he
            cases he
        | some e' =>
            rw [hfind] at he
            cases he
            exact hscope.find? hfind
      exact (lift_upholds hresolve).bind fun e he => Keeps.pure he
  | names target | size target | describe target =>
      exact (scopeOf_upholds target).bind fun _ _ => Keeps.pure trivial
  | contains target name =>
      refine (scopeOf_upholds target).bind fun scope _ => ?_
      cases name with
      | scalar key => exact Keeps.pure trivial
      | list | mapping | supplier | tree => exact Keeps.throw _
  | source name =>
      refine Keeps.get.bind fun s _ => (kept_keeps name _).bind fun _ _ => ?_
      exact Keeps.pure trivial
  | parse name treeName =>
      refine Keeps.get.bind fun s hs => (kept_keeps name _).bind fun reader _ => ?_
      refine (lift_upholds fun tree => parseUnder_sound (hs.scopeAt reader.scope)).bind ?_
      intro tree htree
      refine (Keeps.modify fun s hs => ⟨hs.scopes, ?_⟩).bind fun _ _ => Keeps.pure htree
      exact Association.forall_put (Q := fun read : ReadTree => read.tree.Sound P) htree hs.trees
  | eval name =>
      refine Keeps.get.bind fun s hs => (kept_keeps name _).bind fun read _ => ?_
      have hset : ∀ sources, Session.Sound P { s with sources := sources } :=
        fun _ => ⟨hs.scopes, hs.trees⟩
      cases evaluate read.tree s.sources with
      | ok x sources => exact (Keeps.set (hset _)).bind fun _ _ => Keeps.pure trivial
      | error e sources => exact (Keeps.set (hset _)).bind fun _ _ => Keeps.throw _
  | alike a b =>
      refine Keeps.get.bind fun s _ => (kept_keeps a _).bind fun _ _ => ?_
      exact (kept_keeps b _).bind fun _ _ => Keeps.pure trivial
  | calls name => exact Keeps.get.bind fun _ _ => Keeps.pure trivial

/-- A session stays sound over any number of steps. -/
theorem sound_after {steps : List Step} (h : ∀ step ∈ steps, step.Admissible P) :
    ∀ {s : Session}, s.Sound P → (s.after steps).Sound P := by
  induction steps with
  | nil => exact fun hs => hs
  | cons step steps ih =>
      intro s hs
      obtain ⟨hstep, hsteps⟩ := List.forall_mem_cons.mp h
      refine ih hsteps (s := s.next step) ?_
      have hkept := step_upholds hstep s hs
      unfold next
      cases hrun : Session.step step s with
      | ok reply s' =>
          rw [hrun] at hkept
          exact hkept.1
      | error failure s' =>
          rw [hrun] at hkept
          exact hkept

/-- The tree that a reader of the session reads, if there is one. -/
def read? (s : Session) (reader name : String) : Option Expr :=
  match Session.step (.parse reader name) s with
  | .ok (.tree tree) _ => tree
  | _ => none

/-- What a reader reads is what the step answers. -/
theorem step_of_read? {s : Session} {reader name : String} {tree : Expr}
    (h : s.read? reader name = some tree) :
    ∃ s', Session.step (.parse reader name) s = .ok (.tree (some tree)) s' := by
  unfold read? at h
  split at h
  · next hstep => exact ⟨_, by rw [hstep, h]⟩
  · cases h

/-- What a session reads is sound. -/
theorem sound_of_step_parse {s s' : Session} (h : s.Sound P) {reader name : String} {tree : Expr}
    (hread : Session.step (.parse reader name) s = .ok (.tree (some tree)) s') : tree.Sound P := by
  have hparse : Upholds P (Session.step (.parse reader name)) (Reply.Sound P) :=
    step_upholds trivial
  have hkept := hparse s h
  rw [hread] at hkept
  exact hkept.2

end Session

/-! ### The world of the sources -/

/-- All numbers that a supplier answers are in the range of doubles. -/
def Supplier.Convertible (supplier : Supplier) : Prop :=
  ∀ n ∈ supplier.first :: supplier.others, n.toDouble?.isSome

/-- Whatever the turn, a supplier answers one of its numbers. -/
theorem Supplier.answer_mem (supplier : Supplier) (n : Nat) :
    supplier.answer n ∈ supplier.first :: supplier.others := by
  unfold answer
  split
  · exact List.mem_cons_self
  · next k _ =>
      rw [List.getD_eq_getElem?_getD]
      cases hk : supplier.others[k]? with
      | none => exact List.mem_cons_self
      | some m => exact List.mem_cons_of_mem _ (List.mem_of_getElem? hk)

/-- With the sources, a supplier of convertible numbers answers. -/
theorem Supplier.Convertible.answers {supplier : Supplier} (h : supplier.Convertible) :
    Sources.world.Answers supplier := by
  intro s
  obtain ⟨x, hx⟩ := Option.isSome_iff_exists.mp
    (h _ (supplier.answer_mem (s.timesAsked supplier.identity)))
  refine ⟨x, { s with
    asked := Association.put supplier.identity (s.timesAsked supplier.identity + 1) s.asked }, ?_⟩
  refine (bind_of_ok rfl _).trans ?_
  rw [hx]
  rfl

/-- A random number can always be drawn. -/
theorem Sources.draw_gives : Gives Sources.world.draw :=
  fun _ => ⟨_, _, rfl⟩

/-- **What is read can be evaluated.**  Over any run of a session in which only
numbers, suppliers that answer and trees of the session are bound, every tree
that is read has a value, whatever the elementary functions come out with.  A
tree built by hand, with suppliers that answer, fails precisely if a node in it
is senseless.  And the one integer that is made a double, in rounding, is in
range. -/
theorem read_trees_evaluate {ε σ : Type} (w : World ε σ) (hdraw : Gives w.draw) :
    (∀ (sources : Sources) (steps : List Session.Step),
      (∀ step ∈ steps, step.Admissible w.Answers) →
      ∀ reader name tree s', Session.step (.parse reader name)
          ((Session.fresh sources).after steps) = .ok (.tree (some tree)) s' →
        ∀ s, ∃ x s₁, evaluateIn w tree s = .ok x s₁) ∧
    (∀ e : Expr, e.Asks w.Answers → ∀ s,
      (∃ err s', evaluateIn w e s = .error err s') ↔ ∃ node ∈ e.nodes, node.Senseless) ∧
    (∀ (x : Float) (n : Int), Double.floor? x = some n →
      Double.ofInteger? (if 0.5 ≤ x - Float.ofInt n then n + 1 else n) =
        some (roundHalfUp x)) := by
  refine ⟨?_, ?_, fun x n => ofInteger?_of_floor?⟩
  · intro sources steps hsteps reader name tree s' hread
    have hsound := Session.sound_after hsteps (Session.sound_fresh sources)
    rw [evaluateIn_eq_value]
    exact (Session.sound_of_step_parse hsound hread).gives hdraw
  · intro e hasks s
    rw [evaluateIn_eq_value]
    exact Expr.value_fails_iff hdraw hasks s

/-- A supplier that is bound to a name, and a source that asks it. -/
def suppliedSteps : List Session.Step :=
  [.newReader "r" "2 * x" none (.ofInt 100),
    .assign (.reader "r") "x" (.new (.supplier ⟨0, .integer 3, []⟩))]

/-- A tree that asks a supplier has a value. -/
theorem supplied_steps_evaluate : ∃ tree s', Session.step (.parse "r" "t")
      ((Session.fresh (.fresh fun _ => 0.5)).after suppliedSteps) = .ok (.tree (some tree)) s' ∧
    ∀ s, ∃ x s₁, evaluateIn Sources.world tree s = .ok x s₁ := by
  have hsupplier : (⟨0, .integer 3, []⟩ : Supplier).Convertible := by
    intro n hn
    obtain rfl := List.mem_singleton.mp hn
    decide +kernel
  have hadmissible : ∀ step ∈ suppliedSteps, step.Admissible Sources.world.Answers := by
    intro step hstep
    simp only [suppliedSteps, List.mem_cons, List.not_mem_nil, or_false] at hstep
    rcases hstep with rfl | rfl
    · trivial
    · exact hsupplier.answers
  have hsome : (((Session.fresh (.fresh fun _ => 0.5)).after suppliedSteps).read? "r" "t").isSome :=
    by decide +kernel
  obtain ⟨tree, htree⟩ := Option.isSome_iff_exists.mp hsome
  obtain ⟨s', hread⟩ := Session.step_of_read? htree
  refine ⟨tree, s', hread, ?_⟩
  exact (read_trees_evaluate Sources.world Sources.draw_gives).1 _ _ hadmissible _ _ _ _ hread

end Reckon
