import Reckon.Evaluation
/-!
# The evaluation machine

Trees are evaluated without recursion on them, so that a long chain of
operations needs no deep call stack.  The machine works on a list of tasks and
a stack of values.  A task is a node, and whether its operands are done: the
first turn on an operation puts its operands before it, the second takes their
values from the stack.

Every task weighs as much as the turns it can still cause, and a turn leaves
less than it took, so the machine stops.  Visiting a tree in front of any tasks
is the same as finding its value and going on with it on the stack
(`run_visit`), so the machine computes the value of every tree
(`evaluateIn_eq_value`).
-/

namespace Reckon

namespace Machine

/-- A node to work on, and whether the values of its operands are on the
stack. -/
structure Task where
  node : Expr
  ready : Bool

/-- A node of which nothing is done yet. -/
abbrev visit (e : Expr) : Task :=
  ⟨e, false⟩

/-- An operation whose operands are done. -/
abbrev finish (e : Expr) : Task :=
  ⟨e, true⟩

/-- How many turns a tree can cause. -/
def turns : Expr → Nat
  | .reference _ _ producer => turns producer + 1
  | .unary _ _ operand => turns operand + 2
  | .binary _ _ left right => turns left + turns right + 2
  | .call _ _ argument => turns argument + 2
  | _ => 1

/-- How many turns a task can cause. -/
def Task.weight (task : Task) : Nat :=
  match task.node, task.ready with
  | .unary .., true | .binary .., true | .call .., true => 1
  | node, _ => turns node

theorem Task.weight_pos (task : Task) : 0 < task.weight := by
  obtain ⟨node, ready⟩ := task
  cases node <;> cases ready <;> simp [weight, turns]

/-- How many turns a list of tasks can cause. -/
def weight : List Task → Nat
  | [] => 0
  | task :: tasks => task.weight + weight tasks

theorem weight_append (tasks tasks' : List Task) :
    weight (tasks ++ tasks') = weight tasks + weight tasks' := by
  induction tasks with
  | nil => simp [weight]
  | cons task tasks ih => simp [weight, ih, Nat.add_assoc]

/-- What a turn leaves of a task: tasks in its place, which weigh less, and the
stack. -/
structure Rest (task : Task) where
  tasks : List Task
  values : List Float
  lighter : weight tasks < task.weight

/-- Nothing is left of a task but the stack. -/
def Rest.of {task : Task} (values : List Float) : Rest task :=
  ⟨[], values, task.weight_pos⟩

section World

variable {ε σ : Type} (w : World ε σ)

/-- A turn of the machine. -/
def turn : (task : Task) → List Float → EStateM ε σ (Rest task)
  | ⟨.constant _ x, _⟩, values => return .of (x :: values)
  | ⟨.reference _ _ producer, _⟩, values =>
    return ⟨[visit producer], values, by simp [weight, Task.weight, turns]⟩
  | ⟨.method _ name, _⟩, values => return .of ((← w.method name) :: values)
  | ⟨.supplied _ supplier _, _⟩, values => return .of ((← w.ask supplier) :: values)
  | ⟨.binary _ op _ _, true⟩, b :: a :: values => return .of ((← w.operator op a b) :: values)
  | ⟨.binary p op left right, false⟩, values =>
    return ⟨[visit left, visit right, finish (.binary p op left right)], values,
      by simp [weight, Task.weight, turns]; omega⟩
  | ⟨.unary _ op _, true⟩, x :: values => return .of (World.sign op x :: values)
  | ⟨.unary p op operand, false⟩, values =>
    return ⟨[visit operand, finish (.unary p op operand)], values,
      by simp [weight, Task.weight, turns]⟩
  | ⟨.call _ name _, true⟩, x :: values => return .of ((← w.function name x) :: values)
  | ⟨.call p name argument, false⟩, values =>
    return ⟨[visit argument, finish (.call p name argument)], values,
      by simp [weight, Task.weight, turns]⟩
  | ⟨.bare _, _⟩, _ => w.raise .bareNode
  | ⟨.absent, _⟩, _ => w.raise .missingNode
  -- An operation whose operands are not all on the stack.
  | ⟨_, true⟩, _ => w.raise .unbalanced

/-- Takes turns until no task is left. -/
def run : List Task → List Float → EStateM ε σ (List Float)
  | [], values => return values
  | task :: tasks, values => do
    let rest ← turn w task values
    run (rest.tasks ++ tasks) rest.values
termination_by tasks => weight tasks
decreasing_by
  have hlighter := rest.lighter
  rw [weight_append, weight]
  omega

/-- **A visit leaves the value.**  Whatever tasks and values wait, visiting a
tree finds its value, or fails as it does, and goes on with the value on top
of the stack. -/
theorem run_visit (e : Expr) (tasks : List Task) (values : List Float) :
    run w (visit e :: tasks) values = (do let x ← e.value w; run w tasks (x :: values)) := by
  induction e generalizing tasks values with
  | constant p x => rw [run]; simp [turn, Rest.of, Expr.value]
  | supplied p s l => rw [run]; simp [turn, Rest.of, Expr.value]
  | method p n => rw [run]; simp [turn, Rest.of, Expr.value]
  | reference p n x ih => rw [run]; simp [turn, Expr.value, ih]
  | unary p o x ih => rw [run]; simp [turn, Rest.of, Expr.value, ih, run]
  | binary p o x y ihx ihy => rw [run]; simp [turn, Rest.of, Expr.value, ihx, ihy, run]
  | call p n x ih => rw [run]; simp [turn, Rest.of, Expr.value, ih, run]
  | bare p => rw [run]; rfl
  | absent => rw [run]; rfl

end World

end Machine

/-- Evaluates a tree in a world: the value is on top of the stack. -/
def evaluateIn {ε σ : Type} (w : World ε σ) (e : Expr) : EStateM ε σ Float := do
  match ← Machine.run w [Machine.visit e] [] with
  | x :: _ => return x
  | [] => w.raise .unbalanced

/-- **The machine finds the value of every tree**, with the same answer or the
same error, and leaves the same state behind. -/
theorem evaluateIn_eq_value {ε σ : Type} (w : World ε σ) (e : Expr) :
    evaluateIn w e = e.value w := by
  simp [evaluateIn, Machine.run_visit, Machine.run]

/-- Evaluates a tree with the sources. -/
def evaluate (e : Expr) : Evaluation Float :=
  evaluateIn Sources.world e

end Reckon
