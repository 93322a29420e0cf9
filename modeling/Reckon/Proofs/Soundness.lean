import Reckon.Proofs.Reading
/-!
# Sound trees

A tree is sound if every node that an evaluation can meet in it, captured
producers included, has a meaning (`Sound`).  A sound tree has a value in every
world that answers (`Sound.gives`), and an evaluation visits every node, so a
tree that has a value has a meaning at every node (`sensible_of_value`).

Reading keeps trees sound: what is read over sound variables is sound
(`sound_of_parse`).
-/

namespace Reckon

/-! ### The vocabulary -/

/-- The operators that an expression may use. -/
theorem Operator.isSome_ofText? {op : String} :
    (ofText? op).isSome ↔ op ∈ ["+", "-", "*", "/", "^"] := by
  unfold ofText?
  split <;> simp_all

/-- The functions that an expression may use. -/
theorem Function.isSome_ofName? {name : String} :
    (ofName? name).isSome ↔ name ∈ table.map Prod.fst := by
  rw [ofName?, List.lookup_isSome_iff]
  simp

namespace Expr

/-! ### Nodes -/

/-- The nodes of a tree: its own, those of its operands, and those of the
producers that its references have captured. -/
@[simp] def nodes : Expr → List Expr
  | .reference p name producer => .reference p name producer :: producer.nodes
  | .unary p op operand => .unary p op operand :: operand.nodes
  | .binary p op left right => .binary p op left right :: (left.nodes ++ right.nodes)
  | .call p name argument => .call p name argument :: argument.nodes
  | e => [e]

/-- A node without meaning: a missing or a bare one, or one with an unknown
operator, function or method. -/
@[simp] def Senseless : Expr → Prop
  | .absent | .bare _ => True
  | .binary _ op _ _ => op ∉ ["+", "-", "*", "/", "^"]
  | .call _ name _ => name ∉ Function.table.map Prod.fst
  | .method _ name => name ∉ Method.names
  | _ => False

/-- Every supplier in a tree is one of those in question. -/
def Asks (P : Supplier → Prop) (e : Expr) : Prop :=
  ∀ p supplier label, .supplied p supplier label ∈ e.nodes → P supplier

/-- A node has a meaning, and a supplier is one of those in question. -/
@[simp] def Fit (P : Supplier → Prop) : Expr → Prop
  | .supplied _ supplier _ => P supplier
  | e => ¬ e.Senseless

/-- Every node of a tree is fit. -/
def Sound (P : Supplier → Prop) (e : Expr) : Prop :=
  ∀ node ∈ e.nodes, node.Fit P

variable {P : Supplier → Prop}

/-- A tree is sound when it has no senseless nodes and its suppliers are those
in question. -/
theorem sound_iff {e : Expr} : e.Sound P ↔ (∀ node ∈ e.nodes, ¬ node.Senseless) ∧ e.Asks P := by
  constructor
  · intro h
    refine ⟨fun node hnode => ?_, fun p supplier label hmem => h _ hmem⟩
    have hfit := h node hnode
    cases node with
    | supplied => exact id
    | _ => exact hfit
  · rintro ⟨hsense, hasks⟩ node hnode
    cases node with
    | supplied p supplier label => exact hasks p supplier label hnode
    | _ => exact hsense _ hnode

section Sound

variable {p : Int} {x : Float} {supplier : Supplier} {label name op : String}
  {producer operand left right argument : Expr}

@[simp] theorem sound_constant : (constant p x).Sound P := by
  simp [Sound]

@[simp] theorem sound_supplied : (supplied p supplier label).Sound P ↔ P supplier := by
  simp [Sound]

@[simp] theorem sound_method : (method p name).Sound P ↔ name ∈ Method.names := by
  simp [Sound]

@[simp] theorem sound_reference : (reference p name producer).Sound P ↔ producer.Sound P := by
  simp [Sound]

@[simp] theorem sound_unary : (unary p op operand).Sound P ↔ operand.Sound P := by
  simp [Sound]

@[simp] theorem sound_binary : (binary p op left right).Sound P ↔
    (Operator.ofText? op).isSome ∧ left.Sound P ∧ right.Sound P := by
  rw [Operator.isSome_ofText?]
  simp only [Sound, nodes, List.forall_mem_cons, List.forall_mem_append, Fit, Senseless,
    Decidable.not_not]

@[simp] theorem sound_call : (call p name argument).Sound P ↔
    (Function.ofName? name).isSome ∧ argument.Sound P := by
  rw [Function.isSome_ofName?]
  simp only [Sound, nodes, List.forall_mem_cons, Fit, Senseless, Decidable.not_not]

/-- A bare node has no value. -/
@[simp] theorem not_sound_bare : ¬ (bare p).Sound P := by
  simp [Sound]

/-- A node that is missing has no value. -/
@[simp] theorem not_sound_absent : ¬ absent.Sound P := by
  simp [Sound]

end Sound

/-- Positions have no part in soundness. -/
@[simp] theorem sound_unplaced {e : Expr} : e.unplaced.Sound P ↔ e.Sound P := by
  induction e with
  | unary p op operand ih => simp [unplaced, ih]
  | binary p op left right ihl ihr => simp [unplaced, ihl, ihr]
  | call p name argument ih => simp [unplaced, ih]
  | _ => simp [unplaced]

end Expr

/-! ### Evaluation -/

section World

variable {ε σ : Type}

/-- The suppliers that answer in a world. -/
def World.Answers (w : World ε σ) (supplier : Supplier) : Prop :=
  Gives (w.ask supplier)

variable {w : World ε σ}

/-- **A sound tree has a value** in every world that draws random numbers and
in which its suppliers answer. -/
theorem Expr.Sound.gives (hdraw : Gives w.draw) {e : Expr} (h : e.Sound w.Answers) :
    Gives (e.value w) := by
  induction e with
  | constant p x => exact Gives.pure x
  | supplied p supplier label => exact sound_supplied.mp h
  | method p name =>
      rw [value, World.method, if_pos (sound_method.mp h)]
      exact hdraw
  | reference p name producer ih => exact ih (sound_reference.mp h)
  | unary p op operand ih => exact (ih (sound_unary.mp h)).bind fun x => Gives.pure _
  | binary p op left right ihl ihr =>
      obtain ⟨hop, hleft, hright⟩ := sound_binary.mp h
      obtain ⟨o, ho⟩ := Option.isSome_iff_exists.mp hop
      refine (ihl hleft).bind fun a => (ihr hright).bind fun b => ?_
      rw [World.operator, ho]
      exact Gives.pure _
  | call p name argument ih =>
      obtain ⟨hname, hargument⟩ := sound_call.mp h
      obtain ⟨f, hf⟩ := Option.isSome_iff_exists.mp hname
      refine (ih hargument).bind fun x => ?_
      rw [World.function, hf]
      exact Gives.pure _
  | bare p => exact absurd h not_sound_bare
  | absent => exact absurd h not_sound_absent

/-- **An evaluation visits every node.**  A tree that has a value has no
senseless nodes. -/
theorem Expr.sensible_of_value {e : Expr} {s s' : σ} {x : Float} (h : e.value w s = .ok x s') :
    ∀ node ∈ e.nodes, ¬ node.Senseless := by
  induction e generalizing s s' x with
  | constant | supplied => simp [nodes, Senseless]
  | method p name =>
      by_cases hname : name ∈ Method.names
      · simpa [nodes, Senseless] using hname
      · rw [value, World.method, if_neg hname] at h
        cases h
  | reference p name producer ih => simpa [nodes, Senseless] using ih h
  | unary p op operand ih =>
      obtain ⟨y, s₁, hoperand, -⟩ := bind_eq_ok.mp h
      simpa [nodes, Senseless] using ih hoperand
  | binary p op left right ihl ihr =>
      obtain ⟨a, s₁, hleft, h⟩ := bind_eq_ok.mp h
      obtain ⟨b, s₂, hright, h⟩ := bind_eq_ok.mp h
      have hop : (Operator.ofText? op).isSome := by
        cases ho : Operator.ofText? op with
        | some o => rfl
        | none =>
            rw [World.operator, ho] at h
            cases h
      intro node hnode
      simp only [nodes, List.mem_cons, List.mem_append] at hnode
      rcases hnode with rfl | hnode | hnode
      · exact not_not_intro (Operator.isSome_ofText?.mp hop)
      · exact ihl hleft node hnode
      · exact ihr hright node hnode
  | call p name argument ih =>
      obtain ⟨y, s₁, hargument, h⟩ := bind_eq_ok.mp h
      have hname : (Function.ofName? name).isSome := by
        cases hf : Function.ofName? name with
        | some f => rfl
        | none =>
            rw [World.function, hf] at h
            cases h
      intro node hnode
      simp only [nodes, List.mem_cons] at hnode
      rcases hnode with rfl | hnode
      · exact not_not_intro (Function.isSome_ofName?.mp hname)
      · exact ih hargument node hnode
  | bare | absent => cases h

/-- **What makes an evaluation fail.**  Where random numbers are drawn and the
suppliers of a tree answer, it fails precisely if some node is senseless. -/
theorem Expr.value_fails_iff (hdraw : Gives w.draw) {e : Expr} (h : e.Asks w.Answers) (s : σ) :
    (∃ err s', e.value w s = .error err s') ↔ ∃ node ∈ e.nodes, node.Senseless := by
  constructor
  · rintro ⟨err, s', hvalue⟩
    by_cases hsense : ∃ node ∈ e.nodes, node.Senseless
    · exact hsense
    · have hsound : e.Sound w.Answers :=
        sound_iff.mpr ⟨fun node hnode hnone => hsense ⟨node, hnode, hnone⟩, h⟩
      obtain ⟨x, s₁, hok⟩ := hsound.gives hdraw s
      exact nomatch hvalue.symm.trans hok
  · rintro ⟨node, hnode, hnone⟩
    cases hvalue : e.value w s with
    | ok x s' => exact absurd hnone (sensible_of_value hvalue node hnode)
    | error err s' => exact ⟨err, s', rfl⟩

end World

/-! ### Reading -/

section Reading

variable {P : Supplier → Prop}

/-- All variables of a scope have sound trees. -/
def Scope.Sound (P : Supplier → Prop) (scope : Scope) : Prop :=
  ∀ entry ∈ scope.entries, entry.2.Sound P

/-- What a name is bound to in a sound scope is sound. -/
theorem Scope.Sound.find? {scope : Scope} (h : scope.Sound P) {name : String} {e : Expr}
    (hfind : scope.find? name = some e) : e.Sound P := by
  obtain ⟨k, hmem⟩ := Association.mem_of_get? hfind
  exact h _ hmem

/-- The operators of the two ranks are known. -/
theorem Rank.isSome_ofText? {r : Rank} {sign : Char} (h : sign ∈ r.signs) :
    (Operator.ofText? sign.toString).isSome := by
  cases r <;> simp only [Rank.signs, List.mem_cons, List.not_mem_nil, or_false] at h <;>
    rcases h with rfl | rfl <;> decide

/-- The tree of a phrase is sound if the names in it mean something and those
of variables something sound. -/
theorem Phrase.sound_treeBehind {scope : Scope} (hscope : scope.Sound P) {part : Part}
    (p : Phrase part) : ∀ left : Expr, p.Resolved scope → (∀ r, part = .links r → left.Sound P) →
      (p.treeBehind scope left).Sound P := by
  induction p with
  | chain first rest ihf ihr =>
      intro left hres hleft
      have hfirst := ihf .absent hres.1 fun r hr => absurd hr (Rank.operand_ne_links _ _)
      exact ihr _ hres.2 fun _ _ => hfirst
  | stop => exact fun left hres hleft => hleft _ rfl
  | link sign hsign operand rest iho ihr =>
      intro left hres hleft
      have hoperand := iho .absent hres.1 fun r hr => absurd hr (Rank.operand_ne_links _ _)
      have hlink := Rank.isSome_ofText? hsign
      exact ihr _ hres.2 fun _ _ => Expr.sound_binary.mpr ⟨hlink, hleft _ rfl, hoperand⟩
  | signed sign hsign operand ih =>
      intro left hres hleft
      exact Expr.sound_unary.mpr (ih _ hres (by simp))
  | plain bottom ih => exact fun left hres hleft => ih _ hres (by simp)
  | power bottom exponent ihb ihe =>
      intro left hres hleft
      exact Expr.sound_binary.mpr ⟨rfl, ihb _ hres.1 (by simp), ihe _ hres.2 (by simp)⟩
  | group inner ih => exact fun left hres hleft => ih _ hres (by simp)
  | number text htext => exact fun left hres hleft => Expr.sound_constant
  | reference name hname =>
      intro left hres hleft
      obtain ⟨producer, hfind⟩ := Option.isSome_iff_exists.mp hres
      simpa [treeBehind, hfind] using hscope.find? hfind
  | method name hname => exact fun left hres hleft => Expr.sound_method.mpr hres
  | call name hname argument ih =>
      intro left hres hleft
      exact Expr.sound_call.mpr ⟨hres.1, ih _ hres.2 (by simp)⟩

/-- **What is read over sound variables is sound.** -/
theorem sound_of_parse {scope : Scope} (hscope : scope.Sound P) {limit : Int} {source : String}
    {tree : Expr} (h : parse scope limit source = .ok tree) : tree.Sound P := by
  obtain ⟨p, hp, htree⟩ := Grammar.derives_of_parse h
  have hsound := p.sound_treeBehind hscope .absent hp.resolved (by simp)
  rw [← Expr.sound_unplaced, htree]
  exact hsound

end Reading

end Reckon
