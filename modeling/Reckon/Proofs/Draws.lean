import Reckon.Proofs.Expansion
import Reckon.Proofs.Soundness
/-!
# Drawing from the leaves

An evaluation asks the world once for every impure leaf that it comes by, from
left to right, and captured producers are entered wherever they are referred
to (`value_recorded`).  Nothing else enters into the value: with the numbers
that were drawn in place of the leaves the tree has it in every state
(`value_drawn`).  The sources number their answers, so what a leaf draws is told
by how often its source was used before it (`Sources.Answered`).
-/

namespace Reckon

/-! ### Leaves -/

namespace Expr

/-- What a node asks the world for. -/
def call? : Expr → Option Call
  | .supplied _ supplier _ => some (.supplier supplier)
  | .method _ _ => some .random
  | _ => none

/-- What the impure leaves of a tree ask the world for, from left to right. -/
def impure (e : Expr) : List Call :=
  e.nodes.filterMap call?

/-- A tree with constants in place of its impure leaves, which get the numbers
from left to right.  A leaf for which no number is left stays. -/
def pinned : Expr → List Float → Expr
  | .supplied p _ _, x :: _ => .constant p x
  | .method p _, x :: _ => .constant p x
  | .reference p name producer, xs => .reference p name (producer.pinned xs)
  | .unary p op operand, xs => .unary p op (operand.pinned xs)
  | .binary p op left right, xs =>
    .binary p op (left.pinned xs) (right.pinned (xs.drop left.impure.length))
  | .call p name argument, xs => .call p name (argument.pinned xs)
  | other, _ => other

section Impure

variable {p : Int} {x : Float} {supplier : Supplier} {label name op : String}
  {producer operand left right argument : Expr}

@[simp] theorem impure_constant : (constant p x).impure = [] := rfl

@[simp] theorem impure_supplied : (supplied p supplier label).impure = [.supplier supplier] := rfl

@[simp] theorem impure_method : (method p name).impure = [.random] := rfl

@[simp] theorem impure_reference : (reference p name producer).impure = producer.impure := rfl

@[simp] theorem impure_unary : (unary p op operand).impure = operand.impure := rfl

@[simp] theorem impure_binary : (binary p op left right).impure = left.impure ++ right.impure :=
  List.filterMap_append

@[simp] theorem impure_call : (call p name argument).impure = argument.impure := rfl

@[simp] theorem impure_bare : (bare p).impure = [] := rfl

@[simp] theorem impure_absent : absent.impure = [] := rfl

end Impure

/-- With a number for every leaf no impure leaf is left. -/
theorem impure_pinned {e : Expr} {xs : List Float} (h : e.impure.length ≤ xs.length) :
    (e.pinned xs).impure = [] := by
  induction e generalizing xs with
  | supplied p supplier label =>
      cases xs with
      | nil => simp at h
      | cons x rest => rfl
  | method p name =>
      cases xs with
      | nil => simp at h
      | cons x rest => rfl
  | reference p name producer ih => simpa [pinned] using ih h
  | unary p op operand ih => simpa [pinned] using ih h
  | binary p op left right ihl ihr =>
      rw [impure_binary, List.length_append] at h
      have hleft : left.impure.length ≤ xs.length := by omega
      have hright : right.impure.length ≤ (xs.drop left.impure.length).length := by
        rw [List.length_drop]
        omega
      rw [pinned, impure_binary, ihl hleft, ihr hright]
      rfl
  | call p name argument ih => simpa [pinned] using ih h
  | constant | bare | absent => rfl

/-- Numbers behind those for the leaves have no part. -/
theorem pinned_append {e : Expr} {xs ys : List Float} (h : e.impure.length = xs.length) :
    e.pinned (xs ++ ys) = e.pinned xs := by
  induction e generalizing xs ys with
  | supplied p supplier label =>
      obtain ⟨x, rfl⟩ := List.length_eq_one_iff.mp h.symm
      rfl
  | method p name =>
      obtain ⟨x, rfl⟩ := List.length_eq_one_iff.mp h.symm
      rfl
  | reference p name producer ih => simp only [pinned, ih h]
  | unary p op operand ih => simp only [pinned, ih h]
  | binary p op left right ihl ihr =>
      rw [impure_binary, List.length_append] at h
      obtain ⟨zs, us, rfl, hzs, hus⟩ : ∃ zs us, xs = zs ++ us ∧
          left.impure.length = zs.length ∧ right.impure.length = us.length := by
        refine ⟨xs.take left.impure.length, xs.drop left.impure.length, by simp, ?_, ?_⟩
        · rw [List.length_take]
          omega
        · rw [List.length_drop]
          omega
      simp only [pinned, List.append_assoc, ihl hzs, hzs, List.drop_left, ihr hus]
  | call p name argument ih => simp only [pinned, ih h]
  | constant | bare | absent => rfl

/-- An operation gets the first numbers for its left operand, and those behind
them for its right one. -/
theorem pinned_binary {left right : Expr} {xs : List Float} (h : left.impure.length = xs.length)
    (p : Int) (op : String) (ys : List Float) :
    (binary p op left right).pinned (xs ++ ys) =
      binary p op (left.pinned xs) (right.pinned ys) := by
  rw [pinned, pinned_append h, h, List.drop_left]

end Expr

/-! ### Drawing -/

section World

variable {ε σ : Type} (w : World ε σ)

/-- Asks the world for something. -/
def World.answer : Call → EStateM ε σ Float
  | .supplier s => w.ask s
  | .random => w.draw

/-- Operators ask nothing of the world outside. -/
theorem World.operator_fixed (op : String) (a b : Float) : Fixed (w.operator op a b) := by
  unfold World.operator
  split
  · exact .pure _
  · exact .throw _

/-- Functions ask nothing of the world outside. -/
theorem World.function_fixed (name : String) (x : Float) : Fixed (w.function name x) := by
  unfold World.function
  split
  · exact .pure _
  · exact .throw _

/-- **Only the leaves ask the world.**  What holds of everything that is the same
in all states, and passes to sequences, holds of a value if it does of the
answers to its leaves. -/
theorem Expr.value_closed {C : EStateM ε σ Float → Prop} (hfixed : ∀ x, Fixed x → C x)
    (hbind : ∀ x f, C x → (∀ a, C (f a)) → C (x >>= f)) {e : Expr}
    (hanswer : ∀ call ∈ e.impure, C (w.answer call)) : C (e.value w) := by
  induction e with
  | constant p x => exact hfixed _ (.pure x)
  | supplied p supplier label => exact hanswer (.supplier supplier) List.mem_cons_self
  | method p name =>
      rw [value, World.method]
      split
      · exact hanswer .random List.mem_cons_self
      · exact hfixed _ (.throw _)
  | reference p name producer ih => exact ih hanswer
  | unary p op operand ih => exact hbind _ _ (ih hanswer) fun x => hfixed _ (.pure _)
  | binary p op left right ihl ihr =>
      simp only [impure_binary, List.mem_append] at hanswer
      have hleft := ihl fun call hcall => hanswer call (.inl hcall)
      have hright := ihr fun call hcall => hanswer call (.inr hcall)
      exact hbind _ _ hleft fun a => hbind _ _ hright fun b => hfixed _ (w.operator_fixed op a b)
  | call p name argument ih =>
      exact hbind _ _ (ih hanswer) fun x => hfixed _ (w.function_fixed name x)
  | bare | absent => exact hfixed _ (.throw _)

/-- A tree without impure leaves comes to the same in every state. -/
theorem Expr.value_fixed {e : Expr} (h : e.impure = []) : Fixed (e.value w) := by
  refine value_closed w (fun x => id) (fun x f => Fixed.bind) fun call hcall => ?_
  rw [h] at hcall
  cases hcall

variable {w}

/-- A method that succeeds draws a random number. -/
theorem World.method_of_ok {name : String} {x : Float} {s s' : σ}
    (h : w.method name s = .ok x s') : name ∈ Method.names ∧ w.draw s = .ok x s' := by
  unfold World.method at h
  split at h
  · next hname => exact ⟨hname, h⟩
  · cases h

section Operations

variable {ε' σ' : Type} {v : World ε' σ'} {s s' : σ} {x : Float}

/-- An operation succeeds alike in all worlds with the same elementary
functions. -/
theorem World.operator_of_ok {op : String} {a b : Float} (hv : v.elementary = w.elementary)
    (h : w.operator op a b s = .ok x s') : s' = s ∧ ∀ t, v.operator op a b t = .ok x t := by
  unfold World.operator at h ⊢
  cases ho : Operator.ofText? op with
  | none =>
      rw [ho] at h
      cases h
  | some o =>
      rw [ho] at h
      cases h
      rw [hv]
      exact ⟨rfl, fun t => rfl⟩

/-- A function that has a value has it in every world with the same elementary
functions. -/
theorem World.function_of_ok {name : String} {a : Float} (hv : v.elementary = w.elementary)
    (h : w.function name a s = .ok x s') : s' = s ∧ ∀ t, v.function name a t = .ok x t := by
  unfold World.function at h ⊢
  cases hf : Function.ofName? name with
  | none =>
      rw [hf] at h
      cases h
  | some f =>
      rw [hf] at h
      cases h
      rw [hv]
      exact ⟨rfl, fun t => rfl⟩

end Operations

/-- **Every leaf is asked once, from left to right**, and nothing else is. -/
theorem Expr.value_recorded {e : Expr} {x : Float} {s s' : σ} (h : e.value w s = .ok x s')
    (calls : List Call) :
    e.value w.recorded (s, calls) = .ok x (s', calls ++ e.impure) := by
  induction e generalizing x s s' calls with
  | constant p y =>
      cases h
      simp [value, pure, EStateM.pure]
  | supplied p supplier label =>
      have hask : w.ask supplier s = .ok x s' := h
      simp only [value, World.recorded, noted, hask, impure_supplied]
  | method p name =>
      obtain ⟨hname, hdraw⟩ := World.method_of_ok h
      rw [value, World.method, if_pos hname]
      simp only [World.recorded, noted, hdraw, impure_method]
  | reference p name producer ih => exact ih h calls
  | unary p op operand ih =>
      obtain ⟨y, s₁, hoperand, h⟩ := bind_eq_ok.mp h
      cases h
      exact bind_of_ok (ih hoperand calls) _
  | binary p op left right ihl ihr =>
      obtain ⟨a, s₁, hleft, h⟩ := bind_eq_ok.mp h
      obtain ⟨b, s₂, hright, h⟩ := bind_eq_ok.mp h
      obtain ⟨rfl, hop⟩ := World.operator_of_ok (w := w) (v := w.recorded) rfl h
      rw [value, bind_of_ok (ihl hleft calls), bind_of_ok (ihr hright _), hop, impure_binary,
        List.append_assoc]
  | call p name argument ih =>
      obtain ⟨y, s₁, hargument, h⟩ := bind_eq_ok.mp h
      obtain ⟨rfl, hname⟩ := World.function_of_ok (w := w) (v := w.recorded) rfl h
      rw [value, bind_of_ok (ih hargument calls), hname, impure_call]
  | bare | absent => cases h

/-- Calls are answered one after the other. -/
theorem World.answers_append {calls calls' : List Call} {xs ys : List Float} {s s₁ s' : σ}
    (h : calls.mapM w.answer s = .ok xs s₁) (h' : calls'.mapM w.answer s₁ = .ok ys s') :
    (calls ++ calls').mapM w.answer s = .ok (xs ++ ys) s' := by
  rw [List.mapM_append, bind_of_ok h, bind_of_ok h']
  rfl

/-- **The value is that of the tree with the drawn numbers in it**: what the
leaves draw leads to the same state, and with it in their place the tree has
the value in every state of every world with the same elementary functions. -/
theorem Expr.value_drawn {e : Expr} {x : Float} {s s' : σ} (h : e.value w s = .ok x s') :
    ∃ xs, xs.length = e.impure.length ∧ e.impure.mapM w.answer s = .ok xs s' ∧
      ∀ {ε' σ' : Type} (v : World ε' σ'), v.elementary = w.elementary →
        ∀ t, (e.pinned xs).value v t = .ok x t := by
  induction e generalizing x s s' with
  | constant p y =>
      cases h
      exact ⟨[], rfl, rfl, fun v hv t => rfl⟩
  | supplied p supplier label =>
      have hask : w.ask supplier s = .ok x s' := h
      refine ⟨[x], rfl, ?_, fun v hv t => rfl⟩
      rw [impure_supplied, List.mapM_cons, World.answer, bind_of_ok hask]
      rfl
  | method p name =>
      obtain ⟨-, hdraw⟩ := World.method_of_ok h
      refine ⟨[x], rfl, ?_, fun v hv t => rfl⟩
      rw [impure_method, List.mapM_cons, World.answer, bind_of_ok hdraw]
      rfl
  | reference p name producer ih => exact ih h
  | unary p op operand ih =>
      obtain ⟨y, s₁, hoperand, h⟩ := bind_eq_ok.mp h
      cases h
      obtain ⟨xs, hlength, hdrawn, hvalue⟩ := ih hoperand
      exact ⟨xs, hlength, hdrawn, fun v hv t => bind_of_ok (hvalue v hv t) _⟩
  | binary p op left right ihl ihr =>
      obtain ⟨a, s₁, hleft, h⟩ := bind_eq_ok.mp h
      obtain ⟨b, s₂, hright, h⟩ := bind_eq_ok.mp h
      obtain ⟨rfl, -⟩ := World.operator_of_ok (v := w) rfl h
      obtain ⟨xs, hxs, hdrawnl, hvaluel⟩ := ihl hleft
      obtain ⟨ys, hys, hdrawnr, hvaluer⟩ := ihr hright
      refine ⟨xs ++ ys, by simp [hxs, hys], ?_, fun v hv t => ?_⟩
      · rw [impure_binary]
        exact World.answers_append hdrawnl hdrawnr
      · -- the right operand draws behind the left one, and its numbers stand there
        rw [pinned_binary hxs.symm, value, bind_of_ok (hvaluel v hv t),
          bind_of_ok (hvaluer v hv t)]
        exact (World.operator_of_ok hv h).2 t
  | call p name argument ih =>
      obtain ⟨y, s₁, hargument, h⟩ := bind_eq_ok.mp h
      obtain ⟨rfl, -⟩ := World.function_of_ok (v := w) rfl h
      obtain ⟨xs, hlength, hdrawn, hvalue⟩ := ih hargument
      refine ⟨xs, hlength, hdrawn, fun v hv t => ?_⟩
      rw [pinned, value, bind_of_ok (hvalue v hv t)]
      exact (World.function_of_ok hv h).2 t
  | bare | absent => cases h

end World

/-! ### Sources -/

/-- What can answer differently each time. -/
inductive Source where
  | supplier (identity : Nat)
  | random
deriving DecidableEq

/-- Which source is asked. -/
def Call.source : Call → Source
  | .supplier s => .supplier s.identity
  | .random => .random

namespace Sources

/-- How often a source was used. -/
def uses (s : Sources) : Source → Nat
  | .supplier identity => s.timesAsked identity
  | .random => s.drawn

/-- What is answered to a call by a source that was used `n` times before, as a
double if it is one. -/
def nth? (s : Sources) (n : Nat) : Call → Option Float
  | .supplier supplier => (supplier.answer n).toDouble?
  | .random => some (s.random n)

/-- Under the same random numbers the calls are answered alike. -/
theorem nth?_of_random {s s' : Sources} (h : s'.random = s.random) (n : Nat) (call : Call) :
    s'.nth? n call = s.nth? n call := by
  cases call with
  | supplier supplier => rfl
  | random => exact congrArg (fun random => some (random n)) h

/-- How often a source occurs in calls. -/
def among (calls : List Call) (source : Source) : Nat :=
  (calls.map Call.source).count source

/-- The first call counts for its own source. -/
theorem among_cons (call : Call) (calls : List Call) (source : Source) :
    among (call :: calls) source =
      (if call.source = source then 1 else 0) + among calls source := by
  simp only [among, List.map_cons, List.count_cons, beq_iff_eq]
  exact Nat.add_comm _ _

/-- What answering some calls with some numbers makes of the sources. -/
structure Answered (calls : List Call) (xs : List Float) (s s' : Sources) : Prop where
  /-- Each source was used as often as it occurs, and no other. -/
  uses : ∀ source, s'.uses source = s.uses source + among calls source
  random : s'.random = s.random
  /-- A call is answered with the next number of its source. -/
  answers : ∀ i (hi : i < calls.length), xs[i]? =
    s.nth? (s.uses calls[i].source + among (calls.take i) calls[i].source) calls[i]

/-- The sources when a supplier was asked once more. -/
def asking (supplier : Supplier) (s : Sources) : Sources :=
  let times := s.timesAsked supplier.identity
  { s with asked := Association.put supplier.identity (times + 1) s.asked }

/-- A supplier that is asked has been used once more, and no other. -/
theorem uses_asking (supplier : Supplier) (s : Sources) (source : Source) :
    (s.asking supplier).uses source =
      s.uses source + if .supplier supplier.identity = source then 1 else 0 := by
  cases source with
  | random => rfl
  | supplier identity =>
      by_cases hsame : supplier.identity = identity
      · subst hsame
        simp [uses, asking, timesAsked, Association.get?_put_self]
      · simp [uses, asking, timesAsked, hsame, Association.get?_put_of_ne (Ne.symm hsame)]

/-- A supplier was asked, whether its answer is a double or not. -/
theorem ask_eq (supplier : Supplier) (s : Sources) :
    Sources.world.ask supplier s =
      match (supplier.answer (s.timesAsked supplier.identity)).toDouble? with
      | some x => .ok x (s.asking supplier)
      | none => .error .tooLarge (s.asking supplier) := by
  refine (bind_of_ok rfl _).trans ?_
  cases (supplier.answer (s.timesAsked supplier.identity)).toDouble? <;> rfl

/-- One answer is the next number of its source, which alone was used. -/
theorem answer_of_ok {call : Call} {x : Float} {s s' : Sources}
    (h : Sources.world.answer call s = .ok x s') :
    s.nth? (s.uses call.source) call = some x ∧ s'.random = s.random ∧
      ∀ source, s'.uses source = s.uses source + if call.source = source then 1 else 0 := by
  cases call with
  | random =>
      cases h
      refine ⟨rfl, rfl, fun source => ?_⟩
      cases source <;> rfl
  | supplier supplier =>
      rw [World.answer, ask_eq] at h
      cases hx : (supplier.answer (s.timesAsked supplier.identity)).toDouble? with
      | none =>
          rw [hx] at h
          cases h
      | some y =>
          rw [hx] at h
          cases h
          exact ⟨hx, rfl, uses_asking supplier s⟩

/-- **The sources number their answers.** -/
theorem answered {calls : List Call} {xs : List Float} {s s' : Sources}
    (h : calls.mapM Sources.world.answer s = .ok xs s') : Answered calls xs s s' := by
  induction calls generalizing xs s with
  | nil =>
      cases h
      exact ⟨fun source => rfl, rfl, fun i hi => absurd hi (Nat.not_lt_zero i)⟩
  | cons call rest ih =>
      rw [List.mapM_cons] at h
      obtain ⟨x, s₁, hfirst, h⟩ := bind_eq_ok.mp h
      obtain ⟨ys, s₂, hrest, h⟩ := bind_eq_ok.mp h
      cases h
      obtain ⟨hx, hrandom, huses⟩ := answer_of_ok hfirst
      have hnext := ih hrest
      refine ⟨fun source => ?_, hnext.random.trans hrandom, fun i hi => ?_⟩
      · rw [hnext.uses, huses, among_cons, Nat.add_assoc]
      · cases i with
        | zero => exact hx.symm
        | succ i =>
            have hlater := hnext.answers i (Nat.lt_of_succ_lt_succ hi)
            rw [huses, nth?_of_random hrandom, Nat.add_assoc, ← among_cons] at hlater
            exact hlater

end Sources

end Reckon
