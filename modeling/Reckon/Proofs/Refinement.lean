import Reckon.Machine
import Reckon.Proofs.Computation
/-!
# The machine refines the value

The machine never takes a value from an empty stack.  What carries this is the
balance of a configuration: with the values on the stack the tasks can be
carried out one after the other, each finding its operands, and leave a single
value (`Balanced`).  A turn keeps the balance (`balanced_turn`), so it holds
wherever the machine gets (`balanced_reached`).
-/

namespace Reckon

namespace Machine

/-- How many values a task takes from the stack. -/
def Task.operands (task : Task) : Nat :=
  match task.node, task.ready with
  | .binary .., true => 2
  | .unary .., true | .call .., true => 1
  | _, _ => 0

/-- With so many values on the stack every task finds its operands, and one
value is left in the end. -/
def Balanced : List Task → Nat → Prop
  | [], n => n = 1
  | task :: tasks, n => task.operands ≤ n ∧ Balanced tasks (n - task.operands + 1)

/-- Visiting a tree leaves one more value. -/
@[simp] theorem balanced_visit {e : Expr} {tasks : List Task} {n : Nat} :
    Balanced (visit e :: tasks) n ↔ Balanced tasks (n + 1) := by
  cases e <;> simp [Balanced, Task.operands]

/-- Finishing an operation leaves one value in place of its operands. -/
@[simp] theorem balanced_finish {e : Expr} {tasks : List Task} {n : Nat} :
    Balanced (finish e :: tasks) n ↔
      (finish e).operands ≤ n ∧ Balanced tasks (n - (finish e).operands + 1) :=
  Iff.rfl

variable {ε σ : Type} (w : World ε σ)

/-- Where the machine gets that was started on a tree with some state behind
the world: the tasks, the stack and the state then. -/
inductive Reached (e : Expr) (s : σ) : List Task → List Float → σ → Prop
  | start : Reached e s [visit e] [] s
  | turn {task : Task} {tasks : List Task} {values : List Float} {s₁ s₂ : σ} {rest : Rest task}
      (before : Reached e s (task :: tasks) values s₁)
      (hturn : turn w task values s₁ = .ok rest s₂) :
      Reached e s (rest.tasks ++ tasks) rest.values s₂

variable {w}

/-- A task that asks for a number puts it on the stack. -/
theorem exists_of_ask {task : Task} {ask : EStateM ε σ Float} {values : List Float} {s s' : σ}
    {rest : Rest task}
    (h : (do return Rest.of ((← ask) :: values) : EStateM ε σ (Rest task)) s = .ok rest s') :
    ∃ x, rest = .of (x :: values) := by
  obtain ⟨x, s₁, -, hrest⟩ := bind_eq_ok.mp h
  cases hrest
  exact ⟨x, rfl⟩

/-- A turn either puts one value in place of the operands of its task, or
leaves the stack to tasks that will do so. -/
theorem turn_cases {task : Task} {values : List Float} {s s' : σ} {rest : Rest task}
    (h : turn w task values s = .ok rest s') :
    (∃ x, rest = .of (x :: values.drop task.operands)) ∨
    (task.operands = 0 ∧ rest.values = values ∧
      ∀ tasks n, Balanced tasks (n + 1) → Balanced (rest.tasks ++ tasks) n) := by
  obtain ⟨node, ready⟩ := task
  cases node with
  | constant p x => cases h; exact Or.inl ⟨x, rfl⟩
  | supplied p supplier label => exact Or.inl (exists_of_ask h)
  | method p name => exact Or.inl (exists_of_ask h)
  | reference p name producer =>
      cases h
      exact Or.inr ⟨rfl, rfl, fun tasks n hn => by simpa using hn⟩
  | unary p op operand =>
      cases ready with
      | false =>
          cases h
          exact Or.inr ⟨rfl, rfl, fun tasks n hn => by simpa [Task.operands] using hn⟩
      | true =>
          cases values with
          | nil => cases h
          | cons x values => cases h; exact Or.inl ⟨_, rfl⟩
  | binary p op left right =>
      cases ready with
      | false =>
          cases h
          exact Or.inr ⟨rfl, rfl, fun tasks n hn => by simpa [Task.operands] using hn⟩
      | true =>
          cases values with
          | nil => cases h
          | cons b values =>
              cases values with
              | nil => cases h
              | cons a values => exact Or.inl (exists_of_ask h)
  | call p name argument =>
      cases ready with
      | false =>
          cases h
          exact Or.inr ⟨rfl, rfl, fun tasks n hn => by simpa [Task.operands] using hn⟩
      | true =>
          cases values with
          | nil => cases h
          | cons x values => exact Or.inl (exists_of_ask h)
  | bare p => cases h
  | absent => cases h

/-- A turn keeps the balance. -/
theorem balanced_turn {task : Task} {tasks : List Task} {values : List Float} {s s' : σ}
    {rest : Rest task} (h : turn w task values s = .ok rest s')
    (hbalanced : Balanced (task :: tasks) values.length) :
    Balanced (rest.tasks ++ tasks) rest.values.length := by
  obtain ⟨-, htasks⟩ := hbalanced
  rcases turn_cases h with ⟨x, rfl⟩ | ⟨hnone, hvalues, hrest⟩
  · simpa [Rest.of] using htasks
  · rw [hnone] at htasks
    rw [hvalues]
    exact hrest tasks _ htasks

/-- **The balance is kept.**  Wherever the machine gets from a tree, every task
finds its operands on the stack, and one value is left in the end. -/
theorem balanced_reached {e : Expr} {s s' : σ} {tasks : List Task} {values : List Float}
    (h : Reached w e s tasks values s') : Balanced tasks values.length := by
  induction h with
  | start => exact balanced_visit.mpr rfl
  | turn before hturn ih => exact balanced_turn hturn ih

end Machine

open Machine in
/-- **The machine refines the value.**  For every tree, in every world and from
every state, the machine comes to the same answer, or the same error, as the
value of the tree, and leaves the same state.  Whatever it gets to on the way,
the operands of the next task are on the stack; and when it is through, the
value alone is. -/
theorem machine_refines_value {ε σ : Type} (w : World ε σ) (e : Expr) (s : σ) :
    evaluateIn w e s = e.value w s ∧
    (∀ task tasks values s', Reached w e s (task :: tasks) values s' →
      task.operands ≤ values.length) ∧
    (∀ values s', Reached w e s [] values s' → ∃ x, values = [x]) ∧
    (∀ values s', run w [visit e] [] s = .ok values s' →
      ∃ x, values = [x] ∧ e.value w s = .ok x s') := by
  refine ⟨by rw [evaluateIn_eq_value], ?_, ?_, ?_⟩
  · intro task tasks values s' hreached
    exact (balanced_reached hreached).1
  · intro values s' hreached
    exact List.length_eq_one_iff.mp (balanced_reached hreached)
  · intro values s' hrun
    rw [run_visit] at hrun
    obtain ⟨x, s₁, hvalue, hdone⟩ := bind_eq_ok.mp hrun
    rw [run] at hdone
    cases hdone
    exact ⟨x, rfl, hvalue⟩

end Reckon
