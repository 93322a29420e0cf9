import Reckon.CommandLine
import Reckon.Proofs.Printing
import Reckon.Proofs.Sessions
import Reckon.Proofs.UsableSettings
/-!
# Calculations on a desk

A calculation binds nothing but numbers, so its desk is sound throughout: what
is read has a value.  Hence assigning and reading fail only with faults that
are reported (`performAll_confines`, `read_confines`), and once the expression
is read every command has a line to write (`conclude_says`).
-/

namespace Reckon

open CommandLine

/-- Every variable of a desk has a sound tree. -/
def Desk.Sound (d : Desk) : Prop :=
  d.scope.Sound Sources.world.Answers

/-- A fault that the command line reports. -/
def Reported (f : Fault) : Prop :=
  isCaught f = true

/-- A new desk is sound. -/
theorem Desk.sound_fresh (sources : Sources) : (Desk.fresh sources).Sound := by
  simp [Desk.Sound, Desk.fresh, Scope.Sound, Scope.seeded]

/-- A sound tree may be bound. -/
theorem Scope.Sound.bind {P : Supplier → Prop} {scope : Scope} (h : scope.Sound P) {e : Expr}
    (he : e.Sound P) (name : String) : (scope.bind name e).Sound P :=
  Association.forall_put he h

/-- Numbers may be bound. -/
theorem Desk.Sound.withVariables {d : Desk} (h : d.Sound) (bound : List (String × Float)) :
    (d.withVariables bound).Sound := by
  induction bound generalizing d with
  | nil =>
      rw [Desk.withVariables_nil]
      exact h
  | cons v rest ih =>
      rw [Desk.withVariables_cons]
      exact ih (Scope.Sound.bind h Expr.sound_constant v.1)

/-! ### Steps -/

/-- Reading leaves the scope as it is, and what is read is sound. -/
theorem read_confines (depth : Int) (source : String) :
    Confines Desk.Sound Reported (Work.read (.ofInt depth) source)
      (Expr.Sound Sources.world.Answers) := by
  refine Confines.get.bind fun d hd => ?_
  have hlift : Confines Desk.Sound Reported
      (Work.lift id (parseUnder d.scope (.ofInt depth) source))
      (Expr.Sound Sources.world.Answers) := by
    rw [parseUnder_ofInt]
    cases hparse : parse d.scope depth source with
    | error e => exact Confines.throw rfl
    | ok tree => exact Confines.pure (sound_of_parse hd hparse)
  refine hlift.bind fun tree htree => ?_
  refine Confines.bind (Confines.modify fun _ hd => ?_) fun _ _ => Confines.pure htree
  exact hd

/-- A sound tree is evaluated to its value, and nothing but the sources is used
for it. -/
theorem evaluate_eq_value {tree : Expr} (h : tree.Sound Sources.world.Answers) (d : Desk) :
    ∃ x s, tree.value Sources.world d.sources = .ok x s ∧
      Work.evaluate tree d = .ok x { d with sources := s } := by
  obtain ⟨x, s, hvalue⟩ := h.gives Sources.draw_gives d.sources
  refine ⟨x, s, hvalue, ?_⟩
  rw [Work.evaluate, Reckon.evaluate, evaluateIn_eq_value, hvalue]

/-- An evaluation on a sound desk keeps it sound and does not fail. -/
theorem evaluate_confines {F : Fault → Prop} {tree : Expr}
    (h : tree.Sound Sources.world.Answers) :
    Confines Desk.Sound F (Work.evaluate tree) fun _ => True := by
  intro d hd
  obtain ⟨x, s, -, hrun⟩ := evaluate_eq_value h d
  rw [hrun]
  exact ⟨hd, trivial⟩

/-- A double can always be bound. -/
theorem assign_confines {F : Fault → Prop} (name : String) (x : Float) :
    Confines Desk.Sound F (Work.assign name (.scalar (.number (.double x)))) fun _ => True := by
  intro d hd
  rw [Settings.assign_of_toDouble? rfl name d]
  exact ⟨hd.withVariables _, trivial⟩

/-- An assignment keeps a desk sound, and its faults are reported. -/
theorem perform_confines (depth : Int) (text : String) :
    Confines Desk.Sound Reported (Assignment.perform (.ofInt depth) text) fun _ => True := by
  unfold Assignment.perform
  cases Assignment.split? text with
  | none => exact Confines.throw rfl
  | some parts =>
      exact (read_confines depth parts.2).bind fun tree htree =>
        (evaluate_confines htree).bind fun x _ => assign_confines parts.1 x

/-- Assignments fail only with faults that are reported. -/
theorem performAll_confines (depth : Int) (assignments : List String) :
    Confines Desk.Sound Reported (Assignment.performAll (.ofInt depth) assignments)
      fun _ => True := by
  induction assignments with
  | nil => exact Confines.pure trivial
  | cons text rest ih => exact (perform_confines depth text).bind fun _ _ => ih

/-! ### Up to the line that is written -/

section Command

variable {es : Entries} {depth : Int} {vars : List (String × Number)}

/-- With the variables bound, what is left to prepare fails only with faults
that are reported. -/
theorem prepare_confined (h : Settings.Usable es depth vars) {bound : List (String × Float)}
    (hbound : Settings.converted? vars = some bound) (source : String) (assignments : List String)
    (sources : Sources) :
    Confined Desk.Sound Reported (Expr.Sound Sources.world.Answers)
      (prepare es source assignments (Desk.fresh sources)) := by
  have hdesk := (Desk.sound_fresh sources).withVariables bound
  unfold prepare
  rw [bind_of_ok (h.applySettings_of_converted? hbound _)]
  exact ((performAll_confines depth assignments).bind fun _ _ => read_confines depth source) _ hdesk

/-- With a variable out of range, nothing is prepared. -/
theorem prepare_refused (h : Settings.Usable es depth vars)
    (hbound : Settings.converted? vars = none) (source : String) (assignments : List String)
    (sources : Sources) :
    ∃ d, prepare es source assignments (Desk.fresh sources) = .error (.refusal .tooLarge) d := by
  obtain ⟨d, hd⟩ := h.applySettings_of_out_of_range hbound (Desk.fresh sources)
  exact ⟨d, bind_eq_error.mpr (.inl hd)⟩

/-- The line that a command has to say about a tree: that it can be read, or
what it is worth. -/
def Says (command : Command) (settings : Entries) (tree : Expr) (sources : Sources)
    (line : String) : Prop :=
  match command with
  | .check => line = "OK"
  | .eval | .run => ∃ x s, tree.value Sources.world sources = .ok x s ∧
      formatValue x (Settings.places? settings) = .ok line

/-- **Once the expression is read, there is a line to write**, and the journal
is closed. -/
theorem conclude_says (h : Settings.Usable es depth vars) {tree : Expr}
    (htree : tree.Sound Sources.world.Answers) (command : Command) (d : Desk) :
    ∃ line s, conclude command es tree d = .ok line { d with sources := s } ∧
      Says command es tree d.sources line ∧ '\n' ∉ line.toList := by
  obtain ⟨x, s, hvalue, hevaluate⟩ := evaluate_eq_value htree d
  obtain ⟨y, hformat⟩ := h.formatValue_eq_ok x
  have hconclude : (do
      let x ← Work.evaluate tree
      Work.lift id (formatValue x (Settings.places? es))) d =
        .ok (Double.text y) { d with sources := s } := by
    rw [bind_of_ok hevaluate, hformat]
    rfl
  have hline := Double.newline_not_mem_text y
  cases command with
  | check => exact ⟨"OK", d.sources, rfl, rfl, by decide⟩
  | eval => exact ⟨_, s, hconclude, ⟨x, s, hvalue, hformat⟩, hline⟩
  | run => exact ⟨_, s, hconclude, ⟨x, s, hvalue, hformat⟩, hline⟩

/-- **The commands part only behind the expression.**  A variable is out of
range, or preparing fails with a fault that is reported, whatever the command;
or else every command has a line to write. -/
theorem answer_cases (h : Settings.Usable es depth vars) (source : String)
    (assignments : List String) (sources : Sources) :
    ((∃ v ∈ vars, v.2.toDouble? = none) ∧ ∃ d,
      prepare es source assignments (Desk.fresh sources) = .error (.refusal .tooLarge) d ∧
      ∀ command, answer command es source assignments (Desk.fresh sources) =
        .error (.refusal .tooLarge) d) ∨
    (∃ f d, Reported f ∧ prepare es source assignments (Desk.fresh sources) = .error f d ∧
      ∀ command, answer command es source assignments (Desk.fresh sources) = .error f d) ∨
    ∃ tree d, prepare es source assignments (Desk.fresh sources) = .ok tree d ∧ ∀ command,
      ∃ line s, answer command es source assignments (Desk.fresh sources) =
          .ok line { d with sources := s } ∧
        Says command es tree d.sources line ∧ '\n' ∉ line.toList := by
  cases hbound : Settings.converted? vars with
  | none =>
      obtain ⟨d, hd⟩ := prepare_refused h hbound source assignments sources
      refine .inl ⟨Settings.converted?_eq_none.mp hbound, d, hd, fun command => ?_⟩
      exact bind_eq_error.mpr (.inl hd)
  | some bound =>
      have hprepared := prepare_confined h hbound source assignments sources
      cases hprepare : prepare es source assignments (Desk.fresh sources) with
      | error f d =>
          rw [hprepare] at hprepared
          refine .inr (.inl ⟨f, d, hprepared.2, rfl, fun command => ?_⟩)
          exact bind_eq_error.mpr (.inl hprepare)
      | ok tree d =>
          rw [hprepare] at hprepared
          refine .inr (.inr ⟨tree, d, rfl, fun command => ?_⟩)
          obtain ⟨line, s, hconclude, hsays, hone⟩ := conclude_says h hprepared.2 command d
          exact ⟨line, s, (bind_of_ok hprepare _).trans hconclude, hsays, hone⟩

/-- Behind the expression nothing is logged any more. -/
theorem conclude_keeps_journal (command : Command) (settings : Entries) (tree : Expr)
    (journal : List Event) :
    Keeps (fun d => d.journal = journal) (conclude command settings tree) fun _ => True := by
  have hevaluate : Keeps (fun d : Desk => d.journal = journal) (Work.evaluate tree)
      fun _ => True := by
    intro d hd
    unfold Work.evaluate
    cases Reckon.evaluate tree d.sources with
    | ok x s => exact ⟨hd, trivial⟩
    | error e s => exact hd
  unfold conclude
  by_cases hcheck : command = .check
  · rw [if_pos hcheck]
    exact Keeps.pure trivial
  · rw [if_neg hcheck]
    refine hevaluate.bind fun x _ => ?_
    cases formatValue x (Settings.places? settings) with
    | ok line => exact Keeps.pure trivial
    | error f => exact Keeps.throw f

end Command

end Reckon
