import Reckon.Proofs.Calculations
import Reckon.Proofs.LoadedSettings
import Reckon.Service
/-!
# The tools of the service agree

What a request can bind are data that ask nobody, so its work, up to the tree
of the expression, is the same wherever it is done (`prepare_respects`), and
what follows depends on nothing but the random numbers that are still to be
drawn (`work_respects`).

The two tools part only behind the expression, whose tree has a value; and the
text of a value is no error.  So they agree (`tools_agree`).
-/

namespace Reckon

/-! ### Trees that ask nobody -/

/-- A tree in which every node means something and no supplier is asked. -/
abbrev Expr.Quiet (e : Expr) : Prop :=
  e.Sound fun _ => False

theorem Expr.Sound.mono {P Q : Supplier → Prop} (h : ∀ s, P s → Q s) {e : Expr} (he : e.Sound P) :
    e.Sound Q := by
  intro node hnode
  have hfit := he node hnode
  cases node with
  | supplied p supplier label => exact h _ hfit
  | _ => exact hfit

/-- The random numbers that are still to be drawn are the same. -/
def Sources.DrawAlike (s t : Sources) : Prop :=
  ∀ n, s.random (s.drawn + n) = t.random (t.drawn + n)

theorem Sources.DrawAlike.refl (s : Sources) : s.DrawAlike s :=
  fun _ => rfl

/-- A random number is the same, and so are those behind it. -/
theorem draw_respects :
    Respects Sources.DrawAlike Sources.world.draw fun _ => True := by
  intro s t hst
  refine ⟨hst 0, trivial, fun n => ?_⟩
  have hnext := hst (n + 1)
  rwa [Nat.add_comm n, ← Nat.add_assoc, ← Nat.add_assoc] at hnext

/-- **A quiet tree is worth the same** wherever the same numbers are drawn. -/
theorem Expr.Quiet.value_respects {e : Expr} (h : e.Quiet) :
    Respects Sources.DrawAlike (e.value Sources.world) fun _ => True := by
  induction e with
  | constant p x => exact .pure trivial
  | supplied p supplier label => exact (sound_supplied.mp h).elim
  | method p name =>
      rw [value, World.method, if_pos (sound_method.mp h)]
      exact draw_respects
  | reference p name producer ih => exact ih (sound_reference.mp h)
  | unary p op operand ih => exact (ih (sound_unary.mp h)).bind fun x _ => .pure trivial
  | binary p op left right ihl ihr =>
      obtain ⟨-, hleft, hright⟩ := sound_binary.mp h
      refine (ihl hleft).bind fun a _ => (ihr hright).bind fun b _ => ?_
      unfold World.operator
      split
      · exact .pure trivial
      · exact .throw _
  | call p name argument ih =>
      refine (ih (sound_call.mp h).2).bind fun x _ => ?_
      unfold World.function
      split
      · exact .pure trivial
      · exact .throw _
  | bare p => exact absurd h not_sound_bare
  | absent => exact absurd h not_sound_absent

/-! ### Desks on which nothing asks -/

/-- A datum that is neither a supplier nor a tree. -/
def Datum.Inert : Datum → Prop
  | .supplier _ | .tree _ => False
  | _ => True

/-- An inert datum stands for a constant, if for anything. -/
theorem Datum.Inert.quiet_producer {d : Datum} (h : d.Inert) {label : Scalar} {e : Expr}
    (he : d.producer label = .ok e) : e.Quiet := by
  have hadmissible : (Session.Value.new d).Admissible fun _ => False := by
    cases d with
    | supplier | tree => exact h
    | scalar | list | mapping => trivial
  exact Session.offers_new hadmissible label e he

/-- Two desks with the same variables, which ask nobody, and with sources that
are related. -/
structure Desk.Alike (rel : Sources → Sources → Prop) (d d' : Desk) : Prop where
  scope_eq : d.scope = d'.scope
  quiet : d.scope.Sound fun _ => False
  sources : rel d.sources d'.sources

section Alike

variable {rel : Sources → Sources → Prop}

theorem Desk.Alike.fresh {s t : Sources} (h : rel s t) :
    (Desk.fresh s).Alike rel (Desk.fresh t) :=
  ⟨rfl, by simp [Desk.fresh, Scope.Sound, Scope.seeded], h⟩

/-- To bind a value that asks nothing keeps the desks alike. -/
theorem assign_respects (name : String) {value : Datum} (h : value.Inert) :
    Respects (Desk.Alike rel) (Work.assign name value) fun _ => True := by
  unfold Work.assign
  cases hproducer : value.producer (.text name) with
  | error r => exact .throw _
  | ok e =>
      intro d d' hd
      refine ⟨rfl, trivial, ?_, ?_, hd.sources⟩
      · show d.scope.bind name e = d'.scope.bind name e
        rw [hd.scope_eq]
      · exact hd.quiet.bind (h.quiet_producer hproducer) name

/-- To bind such values one after the other keeps the desks alike. -/
theorem assignEntries_respects {vars : Entries} (h : ∀ entry ∈ vars, entry.2.Inert) :
    Respects (Desk.Alike rel) (Work.assignEntries vars) fun _ => True := by
  induction vars with
  | nil => exact .pure trivial
  | cons entry rest ih =>
      obtain ⟨hfirst, hrest⟩ := List.forall_mem_cons.mp h
      obtain ⟨key, value⟩ := entry
      have hcheck : Respects (Desk.Alike rel) (do
          let _ ← Work.lift .refusal (value.producer key)
          Work.assignEntries rest) fun _ => True := by
        cases value.producer key with
        | error r => exact .throw _
        | ok e => exact ih hrest
      cases key with
      | text name => exact (assign_respects name hfirst).bind fun _ _ => ih hrest
      | nothing | boolean | number | illFormed | moment | foreign => exact hcheck

/-- To read is to leave everything but the journal as it is. -/
theorem read_eq (depth : Int) (source : String) (d : Desk) :
    Work.read (.ofInt depth) source d =
      match parse d.scope depth source with
      | .ok tree => .ok tree { d with journal := d.journal ++ [.parsed source tree] }
      | .error e => .error (.parse e) d := by
  show (Work.lift id (parseUnder d.scope (.ofInt depth) source) >>= _) d = _
  rw [parseUnder_ofInt]
  cases parse d.scope depth source <;> rfl

/-- On desks that are alike the same tree is read. -/
theorem read_respects (depth : Int) (source : String) :
    Respects (Desk.Alike rel) (Work.read (.ofInt depth) source) Expr.Quiet := by
  intro d d' hd
  have hsame : parse d'.scope depth source = parse d.scope depth source := by rw [hd.scope_eq]
  rw [read_eq, read_eq, hsame]
  cases hparse : parse d.scope depth source with
  | error e => exact rfl
  | ok tree => exact ⟨rfl, sound_of_parse hd.quiet hparse, hd.scope_eq, hd.quiet, hd.sources⟩

end Alike

/-- On desks that are alike a tree that asks no supplier has the same value. -/
theorem evaluate_respects {tree : Expr} (h : tree.Quiet) :
    Respects (Desk.Alike Sources.DrawAlike) (Work.evaluate tree) fun _ => True := by
  intro d d' hd
  have hvalue := h.value_respects _ _ hd.sources
  unfold Work.evaluate Reckon.evaluate
  rw [evaluateIn_eq_value]
  cases hrun : tree.value Sources.world d.sources with
  | ok x s =>
      rw [hrun] at hvalue
      obtain ⟨y, t, hrun', rfl, -, hdraws⟩ := hvalue.of_ok
      rw [hrun']
      exact ⟨rfl, trivial, hd.scope_eq, hd.quiet, hdraws⟩
  | error e s =>
      rw [hrun] at hvalue
      obtain ⟨e', t, hrun', rfl⟩ := hvalue.of_error
      rw [hrun']
      exact rfl

namespace Service

/-! ### The work of a request -/

/-- The variables that a request binds are inert. -/
def Inert (bindings : Datum) : Prop :=
  ∀ vars, bindings = .mapping vars → ∀ entry ∈ vars, entry.2.Inert

/-- What is done before the expression is read; the answer is the limit. -/
def opening (settings : Entries) (bindings : Datum) : Work Datum := do
  let limit ← Work.applySettings settings
  bind bindings
  return limit

/-- What a tool says about the tree of an expression. -/
def conclude (tool : Tool) (tree : Expr) : Work String :=
  match tool with
  | .check => return "OK"
  | .evaluate => return Double.text (← Work.evaluate tree)

/-- The tree of an expression, on a desk that is opened for it. -/
def prepare (settings : Entries) (bindings : Datum) (expression : String) : Work Expr := do
  Work.read (← opening settings bindings) expression

/-- **The tools part only behind the expression.** -/
theorem work_eq (tool : Tool) (expression : String) (bindings : Datum) (settings : Entries) :
    work ⟨tool, expression, bindings⟩ settings =
      prepare settings bindings expression >>= conclude tool := by
  unfold work prepare opening
  simp only [bind_assoc, pure_bind]
  congr

section Usable

variable {rel : Sources → Sources → Prop} {es : Entries} {depth : Int}
  {vars : List (String × Number)} {bindings : Datum}

/-- The bindings of a request keep the desks alike. -/
theorem bind_respects (h : Inert bindings) :
    Respects (Desk.Alike rel) (bind bindings) fun _ => True := by
  unfold bind
  split
  · exact .pure trivial
  · split
    · exact assignEntries_respects (h _ rfl)
    · exact .throw _

/-- Settings and bindings are taken up alike. -/
theorem opening_respects (hes : Settings.Usable es depth vars) (h : Inert bindings) :
    Respects (Desk.Alike rel) (opening es bindings) fun limit => limit = .ofInt depth := by
  have hvars : ∀ entry ∈ Settings.variableEntries vars, entry.2.Inert := by
    intro entry hentry
    obtain ⟨v, -, rfl⟩ := List.mem_map.mp hentry
    trivial
  unfold opening
  rw [hes.applySettings_eq]
  refine ((assignEntries_respects hvars).bind fun _ _ => .pure rfl).bind fun limit hlimit => ?_
  exact (bind_respects h).bind fun _ _ => .pure hlimit.symm

/-- Up to the tree of the expression desks that are alike stay so. -/
theorem prepare_respects (hes : Settings.Usable es depth vars) (h : Inert bindings)
    (expression : String) :
    Respects (Desk.Alike rel) (prepare es bindings expression) Expr.Quiet := by
  refine (opening_respects hes h).bind fun limit hlimit => ?_
  subst hlimit
  exact read_respects depth expression

/-- What is made of the tree is the same on desks that are alike. -/
theorem conclude_respects (tool : Tool) {tree : Expr} (h : tree.Quiet) :
    Respects (Desk.Alike Sources.DrawAlike) (conclude tool tree) fun _ => True := by
  cases tool with
  | check => exact .pure trivial
  | evaluate => exact (evaluate_respects h).bind fun _ _ => .pure trivial

/-- **The work of a request is the same** wherever the same numbers are drawn. -/
theorem work_respects (hes : Settings.Usable es depth vars) (tool : Tool) (expression : String)
    (h : Inert bindings) :
    Respects (Desk.Alike Sources.DrawAlike) (work ⟨tool, expression, bindings⟩ es)
      fun _ => True := by
  rw [work_eq]
  exact (prepare_respects hes h expression).bind fun _ htree => conclude_respects tool htree

end Usable

/-! ### What a request finds and leaves -/

/-- What a request sees of the settings: those that are held, or what is loaded
for it. -/
def seen (reader : Settings.Reader) (files : FileTree) (state : State) : Except Fault Entries :=
  match state.shared.held with
  | some a => .ok (state.shared.memory.entries a)
  | none => Settings.load reader Settings.fileName (files.find? Settings.fileName)

/-- What the work of a request comes to as an answer. -/
def said : EStateM.Result Fault Desk String → Answer
  | .ok text _ => .text text
  | .error f _ => ofFault f

/-- Results that match are one answer. -/
theorem said_eq_of_matched {post : String → String → Desk → Desk → Prop}
    (hpost : ∀ s t d d', post s t d d' → s = t) {r r' : EStateM.Result Fault Desk String}
    (h : Matched Eq post r r') : said r = said r' := by
  cases r with
  | ok text d =>
      obtain ⟨text', d', rfl, hsame⟩ := h.of_ok
      exact congrArg Answer.text (hpost _ _ _ _ hsame)
  | error f d =>
      obtain ⟨f', d', rfl, rfl⟩ := h.of_error
      rfl

section Answer

variable {reader : Settings.Reader} {files : FileTree} {state : State} {es : Entries} {f : Fault}

/-- Without settings a request has the fault for its answer, and leaves nothing
held. -/
theorem answer_of_unseen (h : state.shared.Sound) (hseen : seen reader files state = .error f)
    (request : Request) :
    (answer reader files request state).1 = ofFault f ∧
      (answer reader files request state).2.shared.Sound ∧
      (answer reader files request state).2.shared.held = none := by
  unfold seen at hseen
  cases hheld : state.shared.held with
  | some a =>
      rw [hheld] at hseen
      cases hseen
  | none =>
      simp only [hheld] at hseen
      obtain ⟨shared, hrun, hsound, hheld'⟩ := h.obtain_of_fault hheld hseen
      unfold answer
      simp only [hrun]
      exact ⟨trivial, hsound, hheld'⟩

/-- With settings a request has its work for its answer, and leaves the same
settings held. -/
theorem answer_of_seen (h : state.shared.Sound) (hseen : seen reader files state = .ok es)
    (request : Request) :
    (answer reader files request state).1 = said (work request es (Desk.fresh state.sources)) ∧
      (answer reader files request state).2.shared.Sound ∧
      ∃ a, (answer reader files request state).2.shared.held = some a ∧
        (answer reader files request state).2.shared.memory.entries a = es := by
  have hobtain : ∃ a shared, state.shared.obtain reader Settings.fileName
      (files.find? Settings.fileName) = .ok a shared ∧ shared.Sound ∧ shared.held = some a ∧
      shared.memory.entries a = es := by
    unfold seen at hseen
    cases hheld : state.shared.held with
    | some a =>
        rw [hheld] at hseen
        cases hseen
        exact ⟨a, state.shared, Settings.Shared.obtain_of_held hheld _ _ _, h, hheld, rfl⟩
    | none =>
        simp only [hheld] at hseen
        obtain ⟨a, shared, hrun, hsound, hheld', -, hentries⟩ := h.obtain_of_load hheld hseen
        exact ⟨a, shared, hrun, hsound, hheld', hentries⟩
  obtain ⟨a, shared, hrun, hsound, hheld, rfl⟩ := hobtain
  unfold answer
  simp only [hrun]
  cases work request (shared.memory.entries a) (Desk.fresh state.sources) with
  | ok text desk => exact ⟨rfl, hsound, a, hheld, rfl⟩
  | error f desk => exact ⟨rfl, hsound, a, hheld, rfl⟩

end Answer

/-! ### The tools agree -/

/-- What a process comes to: it starts with nothing held, it answers requests,
whatever the files are then, and it drops what it holds. -/
inductive Reached (reader : Settings.Reader) : State → Prop
  | start (sources : Sources) : Reached reader ⟨{}, sources⟩
  | next {state : State} (h : Reached reader state) (files : FileTree) (request : Request) :
      Reached reader (answer reader files request state).2
  | drop {state : State} (h : Reached reader state) :
      Reached reader { state with shared := state.shared.drop }

variable {reader : Settings.Reader}

/-- Settings that a request sees can be used. -/
theorem usable_of_seen {files : FileTree} {state : State} {es : Entries}
    (h : ∀ a, state.shared.held = some a →
      ∃ depth vars, Settings.Usable (state.shared.memory.entries a) depth vars)
    (hseen : seen reader files state = .ok es) : ∃ depth vars, Settings.Usable es depth vars := by
  unfold seen at hseen
  split at hseen
  · next a hheld =>
      cases hseen
      exact h a hheld
  · exact Settings.usable_of_load hseen

/-- What is held is usable. -/
theorem Reached.usable {state : State} (h : Reached reader state) :
    state.shared.Sound ∧ ∀ a, state.shared.held = some a →
      ∃ depth vars, Settings.Usable (state.shared.memory.entries a) depth vars := by
  induction h with
  | start => exact ⟨Settings.Shared.sound_start, fun a ha => nomatch ha⟩
  | drop h ih => exact ⟨ih.1.drop, fun a ha => nomatch ha⟩
  | @next state h files request ih =>
      obtain ⟨hsound, husable⟩ := ih
      cases hseen : seen reader files state with
      | error f =>
          obtain ⟨-, hsound', hheld⟩ := answer_of_unseen hsound hseen request
          exact ⟨hsound', fun a ha => nomatch hheld.symm.trans ha⟩
      | ok es =>
          obtain ⟨-, hsound', b, hheld, hentries⟩ := answer_of_seen hsound hseen request
          refine ⟨hsound', fun a ha => ?_⟩
          obtain rfl : b = a := Option.some.inj (hheld.symm.trans ha)
          rw [hentries]
          exact usable_of_seen husable hseen

/-- How the answers of the two tools go together. -/
structure Agree (checked evaluated : Answer) : Prop where
  /-- The expression is fine precisely if it is given a value. -/
  ok_iff : checked = .text "OK" ↔
    ∃ text, evaluated = .text text ∧ ¬ "Error:".toList <+: text.toList
  /-- Otherwise both report the same error, or the same fault escapes. -/
  otherwise : checked ≠ .text "OK" → evaluated = checked ∧
    ((∃ message, checked = .text ("Error: " ++ message)) ∨ ∃ f, checked = .escape f)

/-- A fault is reported as an error, or it escapes. -/
theorem ofFault_cases (f : Fault) :
    ofFault f = .text ("Error: " ++ f.text) ∨ ofFault f = .escape f := by
  unfold ofFault
  split
  · exact .inl rfl
  · exact .inr rfl

/-- The same fault is answered alike. -/
theorem agree_of_fault (f : Fault) : Agree (ofFault f) (ofFault f) := by
  have hnotOk : ofFault f ≠ .text "OK" := by
    intro h
    rcases ofFault_cases f with htext | hescape
    · have hsame := Answer.text.inj (htext.symm.trans h)
      have hfirst := congrArg (fun s : String => s.toList.head?) hsame
      simp at hfirst
    · exact nomatch hescape.symm.trans h
  constructor
  · refine iff_of_false hnotOk ?_
    rintro ⟨text, htext, hnone⟩
    rcases ofFault_cases f with herror | hescape
    · obtain rfl := Answer.text.inj (herror.symm.trans htext)
      exact hnone ⟨' ' :: f.text.toList, by simp⟩
    · exact nomatch hescape.symm.trans htext
  · intro _
    refine ⟨rfl, ?_⟩
    rcases ofFault_cases f with htext | hescape
    · exact .inl ⟨_, htext⟩
    · exact .inr ⟨_, hescape⟩

/-- The checker has no objection to what has a value. -/
theorem agree_of_value (x : Float) : Agree (.text "OK") (.text (Double.text x)) := by
  have hnoError : ¬ "Error:".toList <+: (Double.text x).toList := by
    rintro ⟨rest, hrest⟩
    have hmem : 'E' ∈ (Double.text x).toList := by
      rw [← hrest]
      exact List.mem_append_left _ (by decide)
    exact absurd (Double.printed_text x 'E' hmem) (by decide)
  exact ⟨iff_of_true rfl ⟨_, rfl, hnoError⟩, fun h => absurd rfl h⟩

/-- Over a tree that asks nobody the tools agree. -/
theorem work_agree {es : Entries} {depth : Int} {vars : List (String × Number)}
    (hes : Settings.Usable es depth vars) {bindings : Datum} (h : Inert bindings)
    (expression : String) (s t : Sources) :
    Agree (said (work ⟨.check, expression, bindings⟩ es (Desk.fresh s)))
      (said (work ⟨.evaluate, expression, bindings⟩ es (Desk.fresh t))) := by
  -- up to the tree the sources have no part in the work
  have halike : (Desk.fresh s).Alike (fun _ _ => True) (Desk.fresh t) := .fresh trivial
  have hprepared := prepare_respects hes h expression _ _ halike
  rw [work_eq, work_eq]
  cases hs : prepare es bindings expression (Desk.fresh s) with
  | error f d =>
      rw [hs] at hprepared
      obtain ⟨f', d', ht, rfl⟩ := hprepared.of_error
      rw [bind_eq_error.mpr (.inl hs), bind_eq_error.mpr (.inl ht)]
      exact agree_of_fault f
  | ok tree d =>
      rw [hs] at hprepared
      obtain ⟨tree', d', ht, rfl, hquiet, -⟩ := hprepared.of_ok
      have hsound : tree.Sound Sources.world.Answers := hquiet.mono fun _ hnone => hnone.elim
      obtain ⟨x, s', -, hevaluate⟩ := evaluate_eq_value hsound d'
      rw [bind_of_ok hs, bind_of_ok ht]
      show Agree (said (.ok "OK" d)) (said ((Work.evaluate tree >>= _) d'))
      rw [bind_of_ok hevaluate]
      exact agree_of_value x

/-- **The tools agree.**  Whatever reader there is, whatever a process has come to
and whatever stands in its files, to check an expression says that it is fine
precisely if to evaluate it gives a value; otherwise both report the same error,
or the same fault escapes.  The random numbers that are drawn do not matter for
that. -/
theorem tools_agree {state : State} (hstate : Reached reader state) (files : FileTree)
    (expression : String) {bindings : Datum} (h : Inert bindings) (sources : Sources) :
    Agree (answer reader files ⟨.check, expression, bindings⟩ state).1
      (answer reader files ⟨.evaluate, expression, bindings⟩ { state with sources := sources }).1 := by
  obtain ⟨hsound, husable⟩ := hstate.usable
  have hsound' : ({ state with sources := sources } : State).shared.Sound := hsound
  cases hseen : seen reader files state with
  | error f =>
      have hseen' : seen reader files { state with sources := sources } = .error f := hseen
      rw [(answer_of_unseen hsound hseen _).1, (answer_of_unseen hsound' hseen' _).1]
      exact agree_of_fault f
  | ok es =>
      have hseen' : seen reader files { state with sources := sources } = .ok es := hseen
      obtain ⟨depth, vars, hes⟩ := usable_of_seen husable hseen
      rw [(answer_of_seen hsound hseen _).1, (answer_of_seen hsound' hseen' _).1]
      exact work_agree hes h expression state.sources sources

/-- The bindings of a request with a variable of its own. -/
def ownBindings : Datum :=
  .mapping [(.text "x", .ofInt 2)]

/-- Bindings of which the second is refused. -/
def mixedBindings : Datum :=
  .mapping [(.text "x", .ofInt 2), (.text "y", .scalar (.boolean true))]

/-- They ask nothing. -/
theorem inert_ownBindings : Inert ownBindings := by
  rintro vars ⟨⟩
  simp [Datum.Inert, Datum.ofInt]

/-- They ask nothing, the refused one included. -/
theorem inert_mixedBindings : Inert mixedBindings := by
  rintro vars ⟨⟩
  simp [Datum.Inert, Datum.ofInt]

/-- A process at its start, in which every random number is zero. -/
def idle : State := ⟨{}, .fresh fun _ => 0⟩

/-- A file of settings with a variable. -/
def gravityFiles : FileTree :=
  .write .empty Settings.fileName (.file Settings.gravityText)

/-- A reader that knows what is in it. -/
def gravityReader : Settings.Reader :=
  Settings.knowing Settings.gravityText Settings.gravityDatum

/-- The text that is answered, if no fault escapes. -/
def Answer.text? : Answer → Option String
  | .text s => some s
  | .escape _ => none

/-- A request that is given a value, and one that is refused. -/
theorem tools_agree_mixed : Reached gravityReader idle ∧ Inert ownBindings ∧ Inert mixedBindings ∧
    Agree (answer gravityReader gravityFiles ⟨.check, "g * x", ownBindings⟩ idle).1
      (answer gravityReader gravityFiles ⟨.evaluate, "g * x", ownBindings⟩ idle).1 ∧
    (answer gravityReader gravityFiles ⟨.check, "g * x", ownBindings⟩ idle).1.text? = some "OK" ∧
    (answer gravityReader gravityFiles ⟨.evaluate, "g * x", ownBindings⟩ idle).1.text? =
      some "19.62" ∧
    Agree (answer gravityReader gravityFiles ⟨.check, "g * x", mixedBindings⟩ idle).1
      (answer gravityReader gravityFiles ⟨.evaluate, "g * x", mixedBindings⟩ idle).1 ∧
    (answer gravityReader gravityFiles ⟨.check, "g * x", mixedBindings⟩ idle).1.text? =
      some "Error: Variable 'y' must be numeric, not bool" :=
  ⟨.start _, inert_ownBindings, inert_mixedBindings,
    tools_agree (.start _) gravityFiles "g * x" inert_ownBindings _,
    by decide +kernel, by decide +kernel,
    tools_agree (.start _) gravityFiles "g * x" inert_mixedBindings _, by decide +kernel⟩

end Service

end Reckon
