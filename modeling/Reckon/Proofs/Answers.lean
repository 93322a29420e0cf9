import Reckon.Proofs.Requests
/-!
# Requests are answered alone

A request leaves nothing behind but the settings that it loaded, and these are
what the file holds (`Faithful.answer`).  So every request is answered as if it
were the only one (`answer_alone`).

Its answer is a matter of what the names in its expression mean: what its own
variables say, then what those of the settings say, then the built-in constants
(`meaning`, `answered_of_work`).
-/

namespace Reckon.Service

/-! ### What a request is answered -/

/-- Why an entry cannot be bound, if it cannot. -/
def refusal? (entry : Scalar × Datum) : Option Refusal :=
  match entry.2.producer entry.1 with
  | .error r => some r
  | .ok _ => none

/-- The tree that entries give a name, the last of them first. -/
def given? (name : String) : Entries → Option Expr
  | [] => none
  | (key, value) :: rest =>
    (given? name rest).or (if key == .text name then (value.producer key).toOption else none)

/-- What a name means in a request: what its bindings say, then what the
settings say, then a built-in constant. -/
def meaning (configured bindings : Entries) (name : String) : Option Expr :=
  (given? name bindings).or ((given? name configured).or (Scope.seeded.find? name))

/-- The entries of the bindings of a request; void bindings have none. -/
def entriesOf (bindings : Datum) : Option Entries :=
  if bindings.isVoid then some [] else bindings.entries?

/-- A desk on which the tree of an entry was bound; only texts are names. -/
def withTree (d : Desk) (key : Scalar) (tree : Expr) : Desk :=
  match key with
  | .text name => { d with
      scope := d.scope.bind name tree
      journal := d.journal ++ [.bound name tree] }
  | _ => d

/-- A tree that is bound last is found first. -/
theorem find?_withTree (d : Desk) (key : Scalar) (tree : Expr) (name : String) :
    (withTree d key tree).scope.find? name =
      (if key == .text name then some tree else none).or (d.scope.find? name) := by
  cases key with
  | text key =>
      show Association.get? name (Association.put key tree d.scope.entries) = _
      by_cases hkey : key = name
      · rw [hkey, Association.get?_put_self, if_pos (Scalar.beq_text.mpr rfl)]
        rfl
      · rw [Association.get?_put_of_ne (Ne.symm hkey), if_neg]
        · rfl
        · intro hsame
          exact hkey (Scalar.text.inj (Scalar.beq_text.mp hsame))
  | nothing | boolean | number | illFormed | moment | foreign => rfl

/-- Entries are bound one after the other, up to the first that is refused. -/
theorem assignEntries_cons (entry : Scalar × Datum) (rest : Entries) (d : Desk) :
    Work.assignEntries (entry :: rest) d =
      match entry.2.producer entry.1 with
      | .error r => .error (.refusal r) d
      | .ok tree => Work.assignEntries rest (withTree d entry.1 tree) := by
  obtain ⟨key, value⟩ := entry
  cases key with
  | text name =>
      show (Work.assign name value >>= fun _ => Work.assignEntries rest) d = _
      unfold Work.assign
      cases value.producer (.text name) <;> rfl
  | nothing | boolean | number | illFormed | moment | foreign =>
      show (Work.lift .refusal (value.producer _) >>= fun _ => Work.assignEntries rest) d = _
      cases value.producer _ <;> rfl

/-- The first entry that cannot be bound ends the work with its refusal. -/
theorem assignEntries_of_refused {vars : Entries} {r : Refusal}
    (h : vars.findSome? refusal? = some r) (d : Desk) :
    ∃ d', Work.assignEntries vars d = .error (.refusal r) d' := by
  induction vars generalizing d with
  | nil => cases h
  | cons entry rest ih =>
      rw [List.findSome?_cons, refusal?] at h
      rw [assignEntries_cons]
      cases hproducer : entry.2.producer entry.1 with
      | error r' =>
          rw [hproducer] at h
          cases h
          exact ⟨d, rfl⟩
      | ok tree =>
          rw [hproducer] at h
          exact ih h _

/-- If there is none, every name has its last tree. -/
theorem assignEntries_of_accepted {vars : Entries} (h : vars.findSome? refusal? = none) (d : Desk) :
    ∃ d', Work.assignEntries vars d = .ok () d' ∧ d'.sources = d.sources ∧
      ∀ name, d'.scope.find? name = (given? name vars).or (d.scope.find? name) := by
  induction vars generalizing d with
  | nil => exact ⟨d, rfl, rfl, fun _ => rfl⟩
  | cons entry rest ih =>
      rw [List.findSome?_cons, refusal?] at h
      rw [assignEntries_cons]
      cases hproducer : entry.2.producer entry.1 with
      | error r =>
          rw [hproducer] at h
          cases h
      | ok tree =>
          rw [hproducer] at h
          obtain ⟨d', hrun, hsources, hfind⟩ := ih h (withTree d entry.1 tree)
          refine ⟨d', hrun, hsources.trans ?_, fun name => ?_⟩
          · unfold withTree
            split <;> rfl
          · rw [hfind, find?_withTree, given?, hproducer, Option.or_assoc]
            rfl

/-- Entries of two lists are bound one list after the other. -/
theorem assignEntries_append (first second : Entries) :
    Work.assignEntries (first ++ second) = (do
      Work.assignEntries first
      Work.assignEntries second) := by
  funext d
  induction first generalizing d with
  | nil => rfl
  | cons entry rest ih =>
      rw [List.cons_append, assignEntries_cons]
      cases hproducer : entry.2.producer entry.1 with
      | error r =>
          refine (bind_eq_error.mpr (.inl ?_)).symm
          rw [assignEntries_cons, hproducer]
      | ok tree =>
          show Work.assignEntries (rest ++ second) _ = EStateM.bind _ _ d
          rw [ih, EStateM.bind, assignEntries_cons, hproducer]
          rfl

/-- Of two groups of entries the later one is asked first. -/
theorem given?_append (name : String) (first second : Entries) :
    given? name (first ++ second) = (given? name second).or (given? name first) := by
  induction first with
  | nil => simp [given?]
  | cons entry rest ih => simp [given?, ih, Option.or_assoc]

/-- The bindings of a request are bound as entries, if they are entries. -/
theorem bind_eq (bindings : Datum) :
    bind bindings = match entriesOf bindings with
      | some vars => Work.assignEntries vars
      | none => throw (.noEntries bindings) := by
  unfold bind entriesOf
  split
  · rfl
  · cases bindings <;> rfl

/-- The scope and the limit under which the expression of a request is read:
all variables can be bound, and every name means what it should. -/
def Opens (es : Entries) (bindings : Datum) (depth : Int) (scope : Scope) : Prop :=
  ∃ vars given, Settings.Usable es depth vars ∧ entriesOf bindings = some given ∧
    (Settings.variableEntries vars ++ given).findSome? refusal? = none ∧
    ∀ name, scope.find? name = meaning (Settings.variableEntries vars) given name

/-- What a tool says about a tree: that it can be read, or what it is worth. -/
def Says (tool : Tool) (tree : Expr) (sources : Sources) (text : String) : Prop :=
  match tool with
  | .check => text = "OK"
  | .evaluate => ∃ x s, tree.value Sources.world sources = .ok x s ∧ text = Double.text x

/-- What a request is answered, by what was loaded as settings. -/
inductive Answered (request : Request) (sources : Sources) : Except Fault Entries → Answer → Prop
  /-- Without settings, their fault. -/
  | unloaded (f : Fault) : Answered request sources (.error f) (ofFault f)
  /-- With a variable that cannot be bound, the first refusal. -/
  | refused {es : Entries} {depth : Int} {vars : List (String × Number)} {r : Refusal}
      (hes : Settings.Usable es depth vars)
      (h : (Settings.variableEntries vars ++ (entriesOf request.bindings).getD []).findSome?
        refusal? = some r) :
      Answered request sources (.ok es) (ofFault (.refusal r))
  /-- With bindings that are no mapping, the fault of that. -/
  | unbound {es : Entries} (h : entriesOf request.bindings = none) :
      Answered request sources (.ok es) (ofFault (.noEntries request.bindings))
  /-- Otherwise the fault of the expression. -/
  | unread {es : Entries} {depth : Int} {scope : Scope} {e : ParseError}
      (hopens : Opens es request.bindings depth scope)
      (hparse : parse scope depth request.expression = .error e) :
      Answered request sources (.ok es) (ofFault (.parse e))
  /-- Or else what the tool says about its tree. -/
  | read {es : Entries} {depth : Int} {scope : Scope} {tree : Expr} {text : String}
      (hopens : Opens es request.bindings depth scope)
      (hparse : parse scope depth request.expression = .ok tree)
      (hsaid : Says request.tool tree sources text) : Answered request sources (.ok es) (.text text)

section Usable

variable {es : Entries} {depth : Int} {vars : List (String × Number)}

/-- To open a desk under usable settings is to bind all variables. -/
theorem opening_eq (hes : Settings.Usable es depth vars) (bindings : Datum) :
    opening es bindings = (do
      Work.assignEntries (Settings.variableEntries vars)
      bind bindings
      return .ofInt depth) := by
  unfold opening
  rw [hes.applySettings_eq]
  simp only [bind_assoc, pure_bind]

/-- Settings and bindings are bound as one row of entries. -/
theorem opening_of_entries (hes : Settings.Usable es depth vars) {bindings : Datum}
    {given : Entries} (hgiven : entriesOf bindings = some given) :
    opening es bindings = (do
      Work.assignEntries (Settings.variableEntries vars ++ given)
      return .ofInt depth) := by
  rw [opening_eq hes, bind_eq, hgiven, assignEntries_append, bind_assoc]

/-- A tree that asks no supplier is answered with what it says. -/
theorem conclude_says_of_quiet (tool : Tool) {tree : Expr} (h : tree.Quiet) (d : Desk) :
    ∃ text d', conclude tool tree d = .ok text d' ∧ Says tool tree d.sources text := by
  cases tool with
  | check => exact ⟨"OK", d, rfl, rfl⟩
  | evaluate =>
      have hsound : tree.Sound Sources.world.Answers := h.mono fun _ hnone => hnone.elim
      obtain ⟨x, s, hvalue, hevaluate⟩ := evaluate_eq_value hsound d
      exact ⟨_, _, bind_of_ok hevaluate _, x, s, hvalue, rfl⟩

/-- On a desk that is open, what a request is answered depends on the expression. -/
theorem answered_of_opens {request : Request} {d : Desk}
    (hopens : Opens es request.bindings depth d.scope) (hquiet : d.scope.Sound fun _ => False) :
    Answered request d.sources (.ok es) (said ((do
      conclude request.tool (← Work.read (.ofInt depth) request.expression)) d)) := by
  have hread := read_eq depth request.expression d
  cases hparse : parse d.scope depth request.expression with
  | error e =>
      rw [hparse] at hread
      rw [bind_eq_error.mpr (.inl hread)]
      exact .unread hopens hparse
  | ok tree =>
      rw [hparse] at hread
      rw [bind_of_ok hread]
      obtain ⟨text, d', hconclude, hsaid⟩ :=
        conclude_says_of_quiet request.tool (sound_of_parse hquiet hparse)
          { d with journal := d.journal ++ [.parsed request.expression tree] }
      rw [hconclude]
      exact .read hopens hparse hsaid

/-- **The work of a request** binds the variables of the settings, then those
of the request, and then does what the tool is for. -/
theorem answered_of_work (hes : Settings.Usable es depth vars) (request : Request)
    (h : Inert request.bindings) (sources : Sources) :
    Answered request sources (.ok es) (said (work request es (Desk.fresh sources))) := by
  rw [work_eq, prepare, bind_assoc]
  cases hgiven : entriesOf request.bindings with
  | none =>
      rw [opening_eq hes, bind_eq, hgiven]
      cases hconfigured : (Settings.variableEntries vars).findSome? refusal? with
      | some r =>
          obtain ⟨d, hrun⟩ := assignEntries_of_refused hconfigured (Desk.fresh sources)
          rw [bind_eq_error.mpr (.inl (bind_eq_error.mpr (.inl hrun)))]
          exact .refused hes (by simpa [hgiven] using hconfigured)
      | none =>
          obtain ⟨d, hrun, -, -⟩ := assignEntries_of_accepted hconfigured (Desk.fresh sources)
          rw [bind_eq_error.mpr (.inl ((bind_of_ok hrun _).trans rfl))]
          exact .unbound hgiven
  | some given =>
      have hquiet := opening_respects hes h _ _ (Desk.Alike.fresh (rfl : sources = sources))
      rw [opening_of_entries hes hgiven] at hquiet ⊢
      cases hall : (Settings.variableEntries vars ++ given).findSome? refusal? with
      | some r =>
          obtain ⟨d, hrun⟩ := assignEntries_of_refused hall (Desk.fresh sources)
          rw [bind_eq_error.mpr (.inl (bind_eq_error.mpr (.inl hrun)))]
          exact .refused hes (by simpa [hgiven] using hall)
      | none =>
          obtain ⟨d, hrun, hsources, hfind⟩ := assignEntries_of_accepted hall (Desk.fresh sources)
          have hopen := (bind_of_ok hrun fun _ => pure (Datum.ofInt depth)).trans rfl
          rw [hopen] at hquiet
          have hsame : d.sources = sources := hsources
          rw [bind_of_ok hopen, ← hsame]
          refine answered_of_opens ⟨vars, given, hes, hgiven, hall, fun name => ?_⟩
            hquiet.2.2.quiet
          rw [hfind, given?_append, Option.or_assoc]
          rfl

end Usable

/-! ### Requests one after the other -/

/-- The state after some requests, with the same files throughout. -/
def after (reader : Settings.Reader) (files : FileTree) (requests : List Request) (state : State) :
    State :=
  requests.foldl (fun state request => (answer reader files request state).2) state

/-- A process that holds nothing: at its start, or when it has dropped what it
held. -/
structure Bare (reader : Settings.Reader) (state : State) : Prop where
  reached : Reached reader state
  held : state.shared.held = none

/-- At first the service holds nothing. -/
theorem bare_start (reader : Settings.Reader) (sources : Sources) : Bare reader ⟨{}, sources⟩ :=
  ⟨.start sources, rfl⟩

/-- Nothing is seen but what the file holds. -/
structure Faithful (reader : Settings.Reader) (files : FileTree) (state : State) : Prop where
  sound : state.shared.Sound
  seen_eq : seen reader files state =
    Settings.load reader Settings.fileName (files.find? Settings.fileName)

variable {reader : Settings.Reader}

/-- A service that holds nothing answers by the files. -/
theorem Bare.faithful {state : State} (h : Bare reader state) (files : FileTree) :
    Faithful reader files state := by
  refine ⟨h.reached.usable.1, ?_⟩
  unfold seen
  rw [h.held]

/-- **A request leaves nothing to be seen but what the file holds**, whether it
is answered in vain or not. -/
theorem Faithful.answer {files : FileTree} {state : State} (h : Faithful reader files state)
    (request : Request) : Faithful reader files (answer reader files request state).2 := by
  cases hseen : seen reader files state with
  | error f =>
      obtain ⟨-, hsound, hheld⟩ := answer_of_unseen h.sound hseen request
      refine ⟨hsound, ?_⟩
      unfold seen
      rw [hheld]
  | ok es =>
      obtain ⟨-, hsound, a, hheld, hentries⟩ := answer_of_seen h.sound hseen request
      refine ⟨hsound, Eq.trans ?_ (hseen.symm.trans h.seen_eq)⟩
      unfold seen
      rw [hheld]
      exact congrArg Except.ok hentries

/-- And so do any number of requests. -/
theorem Faithful.after {files : FileTree} (requests : List Request) {state : State}
    (h : Faithful reader files state) :
    Faithful reader files (after reader files requests state) := by
  induction requests generalizing state with
  | nil => exact h
  | cons request rest ih => exact ih (h.answer request)

/-- **Requests do not influence each other.**  Whatever was asked before under
the same files, some of it in vain, a request is answered as it is alone, with
nothing held and the same random numbers to be drawn.  And its answer is that
of what the file holds: its own variables come before those of the settings,
and these before the built-in constants.  All this holds for any reader. -/
theorem answer_alone (files : FileTree) (earlier : List Request) {start : State}
    (hstart : Bare reader start) (request : Request) (h : Inert request.bindings) :
    (∀ shared sources, Bare reader ⟨shared, sources⟩ →
      sources.DrawAlike (after reader files earlier start).sources →
      (answer reader files request (after reader files earlier start)).1 =
        (answer reader files request ⟨shared, sources⟩).1) ∧
    Answered request (after reader files earlier start).sources
      (Settings.load reader Settings.fileName (files.find? Settings.fileName))
      (answer reader files request (after reader files earlier start)).1 := by
  obtain ⟨hsound, hseen⟩ := (hstart.faithful files).after earlier
  generalize after reader files earlier start = state at hsound hseen ⊢
  cases hload : Settings.load reader Settings.fileName (files.find? Settings.fileName) with
  | error f =>
      rw [(answer_of_unseen hsound (hseen.trans hload) request).1]
      refine ⟨fun shared sources hbare _ => ?_, .unloaded f⟩
      have halone := hbare.faithful files
      rw [(answer_of_unseen halone.sound (halone.seen_eq.trans hload) request).1]
  | ok es =>
      obtain ⟨depth, vars, hes⟩ := Settings.usable_of_load hload
      rw [(answer_of_seen hsound (hseen.trans hload) request).1]
      refine ⟨fun shared sources hbare hdraws => ?_,
        answered_of_work hes request h state.sources⟩
      have halone := hbare.faithful files
      rw [(answer_of_seen halone.sound (halone.seen_eq.trans hload) request).1]
      have hsame := work_respects hes request.tool request.expression h _ _
        (Desk.Alike.fresh hdraws)
      exact (said_eq_of_matched (fun _ _ _ _ hpost => hpost.1) hsame).symm

/-- Requests in vain, each at another point. -/
def vainRequests : List Request :=
  [⟨.evaluate, "1 +", .nothing⟩, ⟨.evaluate, "x + y", mixedBindings⟩,
    ⟨.check, "x", .list [.nothing]⟩]

/-- A request with a variable of its own, besides one of the settings. -/
def forceRequest : Request :=
  ⟨.evaluate, "m * g", .mapping [(.text "m", .ofInt 2)]⟩

/-- Its variable asks nothing. -/
theorem inert_forceRequest : Inert forceRequest.bindings := by
  rintro vars ⟨⟩
  simp [Datum.Inert, Datum.ofInt]

/-- The state after those requests. -/
def afterVain : State :=
  after gravityReader gravityFiles vainRequests idle

/-- A request behind another that failed. -/
theorem answer_alone_gravity :
    Bare gravityReader idle ∧ Inert forceRequest.bindings ∧
      (answer gravityReader gravityFiles forceRequest afterVain).1 =
        (answer gravityReader gravityFiles forceRequest ⟨{}, afterVain.sources⟩).1 ∧
      (answer gravityReader gravityFiles forceRequest afterVain).1.text? = some "19.62" := by
  have hidle : Bare gravityReader idle := bare_start _ _
  refine ⟨hidle, inert_forceRequest, ?_, by decide +kernel⟩
  exact (answer_alone gravityFiles vainRequests hidle forceRequest inert_forceRequest).1
    {} afterVain.sources (bare_start _ _) (Sources.DrawAlike.refl _)

end Reckon.Service
