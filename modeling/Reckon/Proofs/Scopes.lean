import Reckon.Proofs.Apart
/-!
# What a scope records

A scope is written to by sets, some of which are refused and leave it as it is
(`Scope.setAll`).  After any number of them a name has what was last set and not
refused, and the names stand in the order in which they were first set
(`Scope.Records`), both by induction on the sets
(`Scope.find?_setAll_of_refused`, `Scope.names_setAll`).

In a session, scopes are referred to by their places.  What a step can do to
scopes and places is said once (`Session.step_effect`).  So every scope is what
a fresh one is after those sets that were meant for its place
(`Session.Placed.scope_after`), and two references come to have one place only
when a reader is made for a scope that is there
(`Session.Placed.place?_next_inj`).

Which sets are refused is a matter of the datum (`Datum.producer_eq_error`).
-/

namespace Reckon

/-! ### What can be set -/

namespace Datum

/-- A datum that gives a variable nothing: it is no number, no supplier and no
tree, and no truth value, of which more could be said. -/
def Valueless : Datum → Prop
  | .scalar (.boolean _) | .scalar (.number _) | .supplier _ => False
  | .tree e => e = .absent
  | _ => True

/-- The data that cannot be the value of a variable, and why. -/
inductive RefusedAs (label : Scalar) : Datum → Refusal → Prop
  | truthValue (b : Bool) : RefusedAs label (.scalar (.boolean b)) (.truthValue label)
  | tooLarge {n : Int} (h : Double.ofInteger? n = none) : RefusedAs label (.ofInt n) .tooLarge
  | notANumber {d : Datum} (h : d.Valueless) : RefusedAs label d (.notANumber label d.kindName)

variable {label : Scalar} {d : Datum} {r : Refusal}

/-- A datum without a value is refused by its kind. -/
theorem Valueless.producer_eq (h : d.Valueless) (label : Scalar) :
    d.producer label = .error (.notANumber label d.kindName) := by
  cases d with
  | scalar s => cases s <;> first | rfl | exact h.elim
  | list | mapping => rfl
  | supplier => exact h.elim
  | tree e =>
      obtain rfl : e = .absent := h
      rfl

/-- **What is refused**: truth values, integers out of the range of doubles, and
data without a value. -/
theorem producer_eq_error : d.producer label = .error r ↔ RefusedAs label d r := by
  constructor
  · intro h
    have hvalueless : d.Valueless → RefusedAs label d r := by
      intro hd
      obtain rfl := Except.error.inj ((hd.producer_eq label).symm.trans h)
      exact .notANumber hd
    cases d with
    | list | mapping => exact hvalueless trivial
    | supplier => cases h
    | tree e => cases e <;> first | exact hvalueless rfl | cases h
    | scalar s =>
        cases s with
        | nothing | text | illFormed | moment | foreign => exact hvalueless trivial
        | boolean b =>
            cases h
            exact .truthValue b
        | number n =>
            cases n with
            | double x => cases h
            | integer n =>
                rw [producer, Number.toDouble?] at h
                cases hn : Double.ofInteger? n with
                | none =>
                    rw [hn] at h
                    cases h
                    exact .tooLarge hn
                | some x =>
                    rw [hn] at h
                    cases h
  · intro h
    cases h with
    | truthValue b => rfl
    | @tooLarge n hn => rw [ofInt, producer, Number.toDouble?, hn]
    | notANumber hd => exact hd.producer_eq label

end Datum

namespace Scope

/-! ### Sets -/

/-- The datum cannot be set as the value of the name. -/
def Refused (name : String) (d : Datum) : Prop :=
  ∃ refusal, d.producer (.text name) = .error refusal

/-- The scope after a set, which may be refused. -/
def set (s : Scope) (name : String) (d : Datum) : Scope :=
  match s.assign name d with
  | .ok s' => s'
  | .error _ => s

/-- The scope after some sets. -/
def setAll (s : Scope) (ops : List (String × Datum)) : Scope :=
  ops.foldl (fun s op => s.set op.1 op.2) s

/-- The names of the sets that are not refused, in order. -/
def taken (ops : List (String × Datum)) : List String :=
  (ops.filter fun op => (op.2.producer (.text op.1)).isOk).map Prod.fst

variable {s : Scope} {name : String} {d : Datum} {e : Expr} {ops : List (String × Datum)}

/-- A value that is accepted is bound. -/
theorem set_of_ok (s : Scope) (h : d.producer (.text name) = .ok e) :
    s.set name d = s.bind name e := by
  rw [set, assign, h]
  rfl

/-- A value that is refused changes nothing. -/
theorem set_of_refused (s : Scope) (h : Refused name d) : s.set name d = s := by
  obtain ⟨refusal, hrefusal⟩ := h
  rw [set, assign, hrefusal]
  rfl

/-- Every value is accepted or refused. -/
theorem ok_or_refused (name : String) (d : Datum) :
    (∃ e, d.producer (.text name) = .ok e) ∨ Refused name d := by
  cases h : d.producer (.text name) with
  | ok e => exact .inl ⟨e, rfl⟩
  | error refusal => exact .inr ⟨refusal, h⟩

theorem setAll_append (s : Scope) (before after : List (String × Datum)) :
    s.setAll (before ++ after) = (s.setAll before).setAll after :=
  List.foldl_append

/-- A name keeps what it has when no set of it is taken. -/
theorem find?_setAll_of_refused (s : Scope) (h : ∀ d, (name, d) ∈ ops → Refused name d) :
    (s.setAll ops).find? name = s.find? name := by
  induction ops generalizing s with
  | nil => rfl
  | cons op ops ih =>
      obtain ⟨other, d⟩ := op
      have hset : (s.set other d).find? name = s.find? name := by
        by_cases hname : name = other
        · subst hname
          rw [set_of_refused s (h d List.mem_cons_self)]
        · rcases ok_or_refused other d with ⟨e, he⟩ | hrefused
          · rw [set_of_ok s he, find?_bind_of_ne hname]
          · rw [set_of_refused s hrefused]
      exact (ih _ fun d' hd' => h d' (List.mem_cons_of_mem _ hd')).trans hset

/-- Refused sets leave a scope as it is. -/
theorem setAll_of_refused (s : Scope) (h : ∀ op ∈ ops, Refused op.1 op.2) : s.setAll ops = s := by
  induction ops with
  | nil => rfl
  | cons op ops ih =>
      obtain ⟨hop, hops⟩ := List.forall_mem_cons.mp h
      have hall : s.setAll (op :: ops) = (s.set op.1 op.2).setAll ops := rfl
      rw [hall, set_of_refused s hop, ih hops]

/-- New names follow the old ones, each where it was first set. -/
theorem names_setAll (s : Scope) (ops : List (String × Datum)) :
    (s.setAll ops).names = s.names ++ ((taken ops).filter (· ∉ s.names)).eraseDups := by
  induction ops generalizing s with
  | nil => exact (List.append_nil _).symm
  | cons op ops ih =>
      obtain ⟨name, d⟩ := op
      have hall : (s.setAll ((name, d) :: ops)).names = _ := ih (s.set name d)
      rw [hall]
      rcases ok_or_refused name d with ⟨e, he⟩ | ⟨refusal, hrefusal⟩
      · have htaken : taken ((name, d) :: ops) = name :: taken ops := by
          simp [taken, he, Except.isOk, Except.toBool]
        rw [set_of_ok s he, names_bind, htaken]
        by_cases hmem : name ∈ s.names
        · simp [hmem]
        · have hrest : (taken ops).filter (· ∉ s.names ++ [name]) =
              ((taken ops).filter (· ∉ s.names)).filter fun other => !other == name := by
            rw [List.filter_filter]
            refine List.filter_congr fun other _ => ?_
            by_cases hother : other = name <;> simp [hother]
          rw [if_neg hmem, hrest, List.filter_cons_of_pos (by simpa using hmem),
            List.eraseDups_cons, List.append_assoc, List.singleton_append]
      · have htaken : taken ((name, d) :: ops) = taken ops := by
          simp [taken, hrefusal, Except.isOk, Except.toBool]
        rw [set_of_refused s ⟨refusal, hrefusal⟩, htaken]

theorem nodup_names_bind (h : s.names.Nodup) (name : String) (e : Expr) :
    (s.bind name e).names.Nodup := by
  rw [names_bind]
  split
  · exact h
  · next hmem =>
      refine List.nodup_append.mpr ⟨h, List.nodup_singleton name, ?_⟩
      intro other hother new hnew hsame
      rw [hsame, List.mem_singleton.mp hnew] at hother
      exact hmem hother

theorem nodup_names_setAll (h : s.names.Nodup) (ops : List (String × Datum)) :
    (s.setAll ops).names.Nodup := by
  induction ops generalizing s with
  | nil => exact h
  | cons op ops ih =>
      refine ih (s := s.set op.1 op.2) ?_
      rcases ok_or_refused op.1 op.2 with ⟨e, he⟩ | hrefused
      · rw [set_of_ok s he]
        exact nodup_names_bind h _ _
      · rw [set_of_refused s hrefused]
        exact h

/-! ### Observers -/

theorem isSome_find? (s : Scope) (name : String) : (s.find? name).isSome ↔ name ∈ s.names :=
  Association.isSome_get? name s.entries

/-- What a fresh scope records of some sets. -/
structure Records (ops : List (String × Datum)) (s : Scope) : Prop where
  last : ∀ before name d after e, ops = before ++ (name, d) :: after →
    d.producer (.text name) = .ok e → (∀ d', (name, d') ∈ after → Refused name d') →
    s.find? name = some e
  unset : ∀ name, (∀ d, (name, d) ∈ ops → Refused name d) → s.find? name = seeded.find? name
  ordered : s.names = seeded.names ++ ((taken ops).filter (· ∉ seeded.names)).eraseDups
  nodup : s.names.Nodup
  size : s.size = s.names.length
  contains : ∀ key, s.contains key = true ↔ ∃ name, key = .text name ∧ name ∈ s.names
  found : ∀ name, (s.find? name).isSome ↔ name ∈ s.names
  resolved : ∀ name position, name ∈ s.names →
    ∃ e, s.find? name = some e ∧ s.resolve name position = .ok e
  unresolved : ∀ name position, name ∉ s.names → ∃ fault, s.resolve name position = .error fault ∧
    fault.diagnostic.kind? = some .unknownIdentifier ∧ fault.diagnostic.name = some name ∧
    fault.diagnostic.position = position

/-- **A scope records its sets.** -/
theorem records_setAll (ops : List (String × Datum)) : Records ops (seeded.setAll ops) where
  last := by
    intro before name d after e hops he hafter
    subst hops
    have hset : (seeded.setAll (before ++ (name, d) :: after)).find? name =
        (((seeded.setAll before).set name d).setAll after).find? name := by
      rw [setAll_append]
      rfl
    rw [hset, find?_setAll_of_refused _ hafter, set_of_ok _ he, find?_bind_self]
  unset name h := find?_setAll_of_refused seeded h
  ordered := names_setAll seeded ops
  nodup := nodup_names_setAll (by decide) ops
  size := (List.length_map _).symm
  contains key := by
    cases key with
    | text name => simp [contains, isSome_find?]
    | nothing | boolean | number | illFormed | moment | foreign => simp [contains]
  found := isSome_find? _
  resolved name position h := by
    obtain ⟨e, he⟩ := Option.isSome_iff_exists.mp ((isSome_find? _ name).mpr h)
    refine ⟨e, he, ?_⟩
    rw [resolve, he]
  unresolved name position h := by
    have hnone : (seeded.setAll ops).find? name = none := by
      rw [← Option.not_isSome_iff_eq_none, isSome_find?]
      exact h
    refine ⟨⟨.unknownVariable name, position⟩, ?_, rfl, rfl, rfl⟩
    rw [resolve, hnone]

end Scope

namespace Session

open Association (get? put)

/-! ### Places -/

/-- The place of the scope that a target refers to, if it does. -/
def place? (s : Session) : Target → Option Nat
  | .scope name => get? name s.scopeNames
  | .reader name => (get? name s.readers).map Reader.scope

/-- The name by which a target refers to a scope. -/
def Target.name : Target → String
  | .scope name | .reader name => name

/-- What a value stands for, if there is such a value. -/
def Value.offer? (s : Session) : Value → Option Datum
  | .new d => some d
  | .tree id => (get? id s.trees).map fun read => .tree read.tree

/-- The set that a step means for the scope at a place. -/
def meant (place : Nat) (s : Session) : Step → List (String × Datum)
  | .assign target name value =>
    if s.place? target = some place then (value.offer? s).toList.map (name, ·) else []
  | _ => []

/-- The sets that the steps of a run mean for the scope at a place. -/
def meantAll (place : Nat) : Session → List Step → List (String × Datum)
  | _, [] => []
  | s, step :: steps => s.meant place step ++ (s.next step).meantAll place steps

/-- Both sessions have the same scopes, and all references to them. -/
structure SameScopes (s s' : Session) : Prop where
  scopes : s'.scopes = s.scopes
  scopeNames : s'.scopeNames = s.scopeNames
  readers : s'.readers = s.readers

theorem SameScopes.refl (s : Session) : SameScopes s s :=
  ⟨rfl, rfl, rfl⟩

/-- What a step can do to the scopes of a session, and to the references to
them. -/
inductive Effect (s : Session) : Step → EStateM.Result Failure Session Reply → Prop
  | newScope {reply s'} (name : String) (hscopes : s'.scopes = s.scopes ++ [seeded])
      (hnames : s'.scopeNames = put name s.scopes.length s.scopeNames)
      (hreaders : s'.readers = s.readers) : Effect s (.newScope name) (.ok reply s')
  | ownReader {reply s'} (name source : String) (limit : Datum)
      (hscopes : s'.scopes = s.scopes ++ [seeded]) (hnames : s'.scopeNames = s.scopeNames)
      (hreaders : s'.readers = put name ⟨source, limit, s.scopes.length⟩ s.readers) :
      Effect s (.newReader name source none limit) (.ok reply s')
  | sharing {reply s'} (name source shared : String) (limit : Datum) (place : Nat)
      (hplace : s.place? (.scope shared) = some place) (hscopes : s'.scopes = s.scopes)
      (hnames : s'.scopeNames = s.scopeNames)
      (hreaders : s'.readers = put name ⟨source, limit, place⟩ s.readers) :
      Effect s (.newReader name source (some shared) limit) (.ok reply s')
  | taken {reply s'} (target : Target) (name : String) (value : Value) (place : Nat) (d : Datum)
      (scope : Scope) (origin : Origin) (hplace : s.place? target = some place)
      (hoffer : value.offer? s = some d)
      (hassign : (s.scopeAt place).scope.assign name d = .ok scope)
      (hscopes : s'.scopes = s.scopes.set place ⟨scope, origin⟩)
      (hnames : s'.scopeNames = s.scopeNames) (hreaders : s'.readers = s.readers) :
      Effect s (.assign target name value) (.ok reply s')
  | kept {step r} (h : SameScopes s (stateOf r))
      (hmeant : ∀ place, ∀ op ∈ s.meant place step, Scope.Refused op.1 op.2) : Effect s step r

section Steps

variable {s : Session}

theorem placeOf_eq (s : Session) (target : Target) :
    placeOf target s = match s.place? target with
      | some place => .ok place s
      | none => .error (.unknown target.name) s := by
  cases target with
  | scope name =>
      refine (bind_of_ok rfl _).trans ?_
      show kept name s.scopeNames s = _
      rw [kept, place?]
      cases get? name s.scopeNames <;> rfl
  | reader name =>
      refine (bind_of_ok rfl _).trans ?_
      show (kept name s.readers >>= fun reader => pure reader.scope) s = _
      rw [kept, place?]
      cases get? name s.readers <;> rfl

/-- What is offered is noted, with the scopes as they are. -/
theorem offerOf_eq (s : Session) (name : String) (value : Value) :
    (value.offer? s = none ∧ ∃ e, offerOf name value s = .error e s) ∨
    ∃ d origin s', value.offer? s = some d ∧ offerOf name value s = .ok (d, origin) s' ∧
      SameScopes s s' := by
  cases value with
  | tree id =>
      have hrun : offerOf name (.tree id) s = (kept id s.trees >>= fun read =>
          pure (Datum.tree read.tree, read.origin)) s := bind_of_ok rfl _
      rw [hrun, kept, Value.offer?]
      cases get? id s.trees with
      | none => exact .inl ⟨rfl, _, rfl⟩
      | some read => exact .inr ⟨_, _, _, rfl, rfl, .refl s⟩
  | new d =>
      right
      cases d with
      | supplier supplier => exact ⟨_, _, _, rfl, rfl, ⟨rfl, rfl, rfl⟩⟩
      | scalar | list | mapping | tree => exact ⟨_, _, _, rfl, rfl, .refl s⟩

theorem bindAt_of_ok {place : Nat} {name : String} {d : Datum} {scope : Scope}
    (h : (s.scopeAt place).scope.assign name d = .ok scope) (origin : Origin) :
    ∃ origin' s', bindAt place name d origin s = .ok () s' ∧
      s'.scopes = s.scopes.set place ⟨scope, origin'⟩ ∧ s'.scopeNames = s.scopeNames ∧
      s'.readers = s.readers := by
  have hrun : bindAt place name d origin s = _ := bind_of_ok rfl _
  rw [hrun]
  simp only [h]
  exact ⟨_, _, rfl, rfl, rfl, rfl⟩

theorem bindAt_of_error {place : Nat} {name : String} {d : Datum} {refusal : Refusal}
    (h : (s.scopeAt place).scope.assign name d = .error refusal) (origin : Origin) :
    bindAt place name d origin s = .error (.fault (.refusal refusal)) s := by
  have hrun : bindAt place name d origin s = _ := bind_of_ok rfl _
  rw [hrun]
  simp only [h]
  rfl

theorem parse_keeps (reader tree : String) :
    Keeps (SameScopes s) (Session.step (.parse reader tree)) fun _ => True := by
  refine Keeps.get.bind fun _ _ => (kept_keeps reader _).bind fun _ _ => ?_
  refine (lift_keeps _ _).bind fun _ _ => (Keeps.modify fun s hs => ?_).bind fun _ _ => ?_
  · exact ⟨hs.scopes, hs.scopeNames, hs.readers⟩
  · exact .pure trivial

theorem eval_keeps (tree : String) :
    Keeps (SameScopes s) (Session.step (.eval tree)) fun _ => True := by
  refine Keeps.get.bind fun s₁ hs => (kept_keeps tree _).bind fun read _ => ?_
  have hset : ∀ sources, SameScopes s { s₁ with sources := sources } :=
    fun _ => ⟨hs.scopes, hs.scopeNames, hs.readers⟩
  cases evaluate read.tree s₁.sources with
  | ok x sources => exact (Keeps.set (hset _)).bind fun _ _ => .pure trivial
  | error e sources => exact (Keeps.set (hset _)).bind fun _ _ => .throw _

/-- A step that keeps the scopes, and is no assignment. -/
theorem effect_of_keeps {step : Step} (h : Keeps (SameScopes s) (Session.step step) fun _ => True)
    (hmeant : ∀ place, s.meant place step = []) : Effect s step (Session.step step s) := by
  refine .kept (h.stateOf (.refl s)) fun place op hop => ?_
  rw [hmeant] at hop
  cases hop

/-- A step that changes nothing, and means no set that is not refused. -/
theorem effect_of_error {step : Step} {e : Failure} (h : Session.step step s = .error e s)
    (hmeant : ∀ place, ∀ op ∈ s.meant place step, Scope.Refused op.1 op.2) :
    Effect s step (Session.step step s) := by
  rw [h]
  exact .kept (.refl s) hmeant

/-- What an assignment means for a scope is what it offers. -/
theorem mem_meant {place : Nat} {target : Target} {name : String} {value : Value}
    {op : String × Datum} (h : op ∈ s.meant place (.assign target name value)) :
    s.place? target = some place ∧ ∃ d, value.offer? s = some d ∧ op = (name, d) := by
  rw [meant] at h
  split at h
  · next hplace =>
      obtain ⟨d, hd, rfl⟩ := List.mem_map.mp h
      exact ⟨hplace, d, Option.mem_toList.mp hd, rfl⟩
  · cases h

/-- What is offered is taken by the scope at its place, or refused. -/
theorem assign_offer_effect {target : Target} {name : String} {value : Value} {place : Nat}
    {d : Datum} {origin : Origin} {s₁ : Session} (hplace : s.place? target = some place)
    (hoffer : value.offer? s = some d) (hrun : offerOf name value s = .ok (d, origin) s₁)
    (hsame : SameScopes s s₁) :
    Effect s (.assign target name value) (Session.step (.assign target name value) s) := by
  have hfound : placeOf target s = .ok place s := by
    rw [placeOf_eq, hplace]
  have hstep : Session.step (.assign target name value) s =
      (bindAt place name d origin >>= fun _ => pure Reply.done) s₁ :=
    (bind_of_ok hfound _).trans (bind_of_ok hrun _)
  have hscope : s₁.scopeAt place = s.scopeAt place := by
    rw [scopeAt, hsame.scopes, scopeAt]
  cases hassign : (s.scopeAt place).scope.assign name d with
  | ok scope =>
      obtain ⟨origin', s', hbind, hscopes, hnames, hreaders⟩ :=
        bindAt_of_ok (hscope ▸ hassign) origin
      rw [hstep, bind_of_ok hbind]
      refine .taken target name value place d scope origin' hplace hoffer hassign ?_ ?_ ?_
      · rw [hscopes, hsame.scopes]
      · rw [hnames, hsame.scopeNames]
      · rw [hreaders, hsame.readers]
  | error refusal =>
      have hbind := bindAt_of_error (hscope ▸ hassign) origin
      rw [hstep, bind_eq_error.mpr (.inl hbind)]
      refine .kept hsame fun place' op hop => ?_
      obtain ⟨-, d', hd', rfl⟩ := mem_meant hop
      cases hoffer.symm.trans hd'
      rcases Scope.ok_or_refused name d with ⟨e, he⟩ | hrefused
      · rw [Scope.assign, he] at hassign
        cases hassign
      · exact hrefused

/-- Without a scope or an offer an assignment does nothing. -/
theorem assign_effect (s : Session) (target : Target) (name : String) (value : Value) :
    Effect s (.assign target name value) (Session.step (.assign target name value) s) := by
  have hfound := placeOf_eq s target
  cases hplace : s.place? target with
  | none =>
      rw [hplace] at hfound
      refine effect_of_error (bind_eq_error.mpr (.inl hfound)) fun place op hop => ?_
      rw [(mem_meant hop).1] at hplace
      cases hplace
  | some place =>
      rw [hplace] at hfound
      rcases offerOf_eq s name value with ⟨hnone, e, hrun⟩ | ⟨d, origin, s₁, hd, hrun, hsame⟩
      · have hstep : Session.step (.assign target name value) s = .error e s :=
          (bind_of_ok hfound _).trans (bind_eq_error.mpr (.inl hrun))
        refine effect_of_error hstep fun place op hop => ?_
        obtain ⟨-, d, hd, -⟩ := mem_meant hop
        rw [hd] at hnone
        cases hnone
      · exact assign_offer_effect hplace hd hrun hsame

/-- **What a step can do** to the scopes of a session. -/
theorem step_effect (s : Session) (step : Step) : Effect s step (Session.step step s) := by
  cases step with
  | newScope name => exact .newScope name rfl rfl rfl
  | newReader name source scope limit =>
      cases scope with
      | none => exact .ownReader name source limit rfl rfl rfl
      | some shared =>
          have hplace := placeOf_eq s (.scope shared)
          cases htarget : s.place? (.scope shared) with
          | none =>
              rw [htarget] at hplace
              exact effect_of_error (bind_eq_error.mpr (.inl hplace)) fun _ _ hop => nomatch hop
          | some place =>
              rw [htarget] at hplace
              have hstep : Session.step (.newReader name source (some shared) limit) s = .ok .done
                  { s with readers := put name ⟨source, limit, place⟩ s.readers } :=
                (bind_of_ok hplace _).trans rfl
              rw [hstep]
              exact .sharing name source shared limit place htarget rfl rfl rfl
  | assign target name value => exact assign_effect s target name value
  | parse reader tree => exact effect_of_keeps (parse_keeps reader tree) fun _ => rfl
  | eval tree => exact effect_of_keeps (eval_keeps tree) fun _ => rfl
  | find | resolve | names | size | describe | contains | source | alike | calls =>
      exact effect_of_keeps (keeps_of_looks trivial) fun _ => rfl

/-- A step that fails has left the scopes as they were. -/
theorem sameScopes_of_error {step : Step} {e : Failure} {s' : Session}
    (h : Session.step step s = .error e s') : SameScopes s s' := by
  have heffect := step_effect s step
  rw [h] at heffect
  cases heffect with
  | kept h => exact h

/-- The effect of a step, on the session that it leaves. -/
theorem next_effect (s : Session) (step : Step) :
    ∃ r, stateOf r = s.next step ∧ Effect s step r :=
  ⟨_, (next_eq s step).symm, step_effect s step⟩

/-! ### References -/

theorem SameScopes.place? {s' : Session} (h : SameScopes s s') (target : Target) :
    s'.place? target = s.place? target := by
  cases target with
  | scope name => rw [Session.place?, h.scopeNames, Session.place?]
  | reader name => rw [Session.place?, h.readers, Session.place?]

/-- A new name refers to its place, and all else to where it did. -/
theorem place?_of_scopeNames {s' : Session} {name : String} {place : Nat}
    (hnames : s'.scopeNames = put name place s.scopeNames) (hreaders : s'.readers = s.readers)
    (target : Target) : target = .scope name ∧ s'.place? target = some place ∨
      s'.place? target = s.place? target := by
  cases target with
  | scope other =>
      rw [place?, hnames]
      by_cases hother : other = name
      · subst hother
        exact .inl ⟨rfl, Association.get?_put_self ..⟩
      · exact .inr (Association.get?_put_of_ne hother ..)
  | reader other =>
      rw [place?, hreaders]
      exact .inr rfl

/-- A new reader refers to the place of its scope, and all else to where it did. -/
theorem place?_of_readers {s' : Session} {name : String} {reader : Reader}
    (hnames : s'.scopeNames = s.scopeNames) (hreaders : s'.readers = put name reader s.readers)
    (target : Target) : target = .reader name ∧ s'.place? target = some reader.scope ∨
      s'.place? target = s.place? target := by
  cases target with
  | scope other =>
      rw [place?, hnames]
      exact .inr rfl
  | reader other =>
      rw [place?, hreaders]
      by_cases hother : other = name
      · subst hother
        exact .inl ⟨rfl, congrArg _ (Association.get?_put_self ..)⟩
      · exact .inr (congrArg _ (Association.get?_put_of_ne hother ..))

/-- The reference that a step makes. -/
def Step.made? : Step → Option Target
  | .newScope name => some (.scope name)
  | .newReader name .. => some (.reader name)
  | _ => none

/-- After a step a reference is to the place it was to before, or it is new: to
the place of a new scope, or to that of a scope that is shared. -/
theorem place?_next (s : Session) (step : Step) (target : Target) :
    (s.next step).place? target = s.place? target ∨
    step.made? = some target ∧
      ((s.next step).place? target = some s.scopes.length ∧
        s.scopes.length < (s.next step).scopes.length ∨
      ∃ name source shared limit, step = .newReader name source (some shared) limit ∧
        (s.next step).place? target = s.place? (.scope shared)) := by
  obtain ⟨r, hnext, heffect⟩ := next_effect s step
  rw [← hnext]
  cases heffect with
  | newScope name hscopes hnames hreaders =>
      rcases place?_of_scopeNames hnames hreaders target with ⟨rfl, hplace⟩ | hplace
      · exact .inr ⟨rfl, .inl ⟨hplace, by simp [stateOf, hscopes]⟩⟩
      · exact .inl hplace
  | ownReader name source limit hscopes hnames hreaders =>
      rcases place?_of_readers hnames hreaders target with ⟨rfl, hplace⟩ | hplace
      · exact .inr ⟨rfl, .inl ⟨hplace, by simp [stateOf, hscopes]⟩⟩
      · exact .inl hplace
  | sharing name source shared limit place hshared hscopes hnames hreaders =>
      rcases place?_of_readers hnames hreaders target with ⟨rfl, hplace⟩ | hplace
      · exact .inr ⟨rfl, .inr ⟨name, source, shared, limit, rfl, hplace.trans hshared.symm⟩⟩
      · exact .inl hplace
  | taken target' name value place d scope origin _ _ _ hscopes hnames hreaders =>
      left
      cases target with
      | scope other => exact congrArg (get? other) hnames
      | reader other => exact congrArg (fun readers => (get? other readers).map _) hreaders
  | kept h => exact .inl (h.place? target)

/-- Scopes are never taken away. -/
theorem length_scopes_next (s : Session) (step : Step) :
    s.scopes.length ≤ (s.next step).scopes.length := by
  obtain ⟨r, hnext, heffect⟩ := next_effect s step
  rw [← hnext]
  cases heffect with
  | newScope _ hscopes | ownReader _ _ _ hscopes => simp [stateOf, hscopes]
  | sharing _ _ _ _ _ _ hscopes => exact (congrArg List.length hscopes).ge
  | taken _ _ _ _ _ _ _ _ _ _ hscopes => simp [stateOf, hscopes]
  | kept h => exact (congrArg List.length h.scopes).ge

/-- Every reference is to a scope that is there. -/
def Placed (s : Session) : Prop :=
  ∀ target place, s.place? target = some place → place < s.scopes.length

/-- A new session has no scopes to name. -/
theorem placed_fresh (sources : Sources) : (fresh sources).Placed := by
  intro target place h
  cases target <;> cases h

/-- A step keeps names at their places. -/
theorem Placed.next (hs : s.Placed) (step : Step) : (s.next step).Placed := by
  intro target place h
  have hlength := length_scopes_next s step
  rcases place?_next s step target with hold | ⟨-, ⟨hnew, hlonger⟩ | ⟨_, _, shared, _, -, hshared⟩⟩
  · rw [hold] at h
    exact (hs _ _ h).trans_le hlength
  · rw [hnew] at h
    cases h
    exact hlonger
  · rw [hshared] at h
    exact (hs _ _ h).trans_le hlength

/-- Any steps keep names at their places. -/
theorem Placed.after {s : Session} (hs : s.Placed) (steps : List Step) :
    (s.after steps).Placed := by
  induction steps generalizing s with
  | nil => exact hs
  | cons step steps ih => exact ih (hs.next step)

/-- **Two references come to have one place** only when a reader is made for a
scope that is there. -/
theorem Placed.place?_next_inj (hs : s.Placed) {step : Step} {target other : Target}
    (hne : target ≠ other) {place : Nat} (h : (s.next step).place? target = some place)
    (hother : (s.next step).place? other = some place) :
    s.place? target = some place ∧ s.place? other = some place ∨
    ∃ name source shared limit, step = .newReader name source (some shared) limit ∧
      (target = .reader name ∨ other = .reader name) := by
  rcases place?_next s step target with hold | ⟨hmade, ⟨hnew, -⟩ | ⟨name, source, shared, limit,
    rfl, -⟩⟩
  · rcases place?_next s step other with hold' | ⟨hmade', ⟨hnew', -⟩ | ⟨name, source, shared,
      limit, rfl, -⟩⟩
    · exact .inl ⟨hold ▸ h, hold' ▸ hother⟩
    · rw [hold] at h
      rw [hnew'] at hother
      cases hother
      exact absurd (hs _ _ h) (Nat.lt_irrefl _)
    · cases hmade'
      exact .inr ⟨name, source, shared, limit, rfl, .inr rfl⟩
  · rcases place?_next s step other with hold' | ⟨hmade', -⟩
    · rw [hold'] at hother
      rw [hnew] at h
      cases h
      exact absurd (hs _ _ hother) (Nat.lt_irrefl _)
    · exact absurd (Option.some.inj (hmade.symm.trans hmade')) hne
  · cases hmade
    exact .inr ⟨name, source, shared, limit, rfl, .inl rfl⟩

/-! ### Scopes -/

theorem scopeAt_of_append {s' : Session} (h : s'.scopes = s.scopes ++ [seeded]) (place : Nat) :
    s'.scopeAt place = s.scopeAt place := by
  rw [scopeAt, h, scopeAt, List.getD_eq_getElem?_getD, List.getD_eq_getElem?_getD]
  rcases Nat.lt_trichotomy place s.scopes.length with hlt | rfl | hgt
  · rw [List.getElem?_append_left hlt]
  · simp
  · rw [List.getElem?_eq_none (by simp; omega), List.getElem?_eq_none hgt.le]

/-- **A step changes a scope** by the set that it means for its place, and
otherwise not at all. -/
theorem Placed.scope_next (hs : s.Placed) (step : Step) (place : Nat) :
    ((s.next step).scopeAt place).scope = (s.scopeAt place).scope.setAll (s.meant place step) := by
  obtain ⟨r, hnext, heffect⟩ := next_effect s step
  rw [← hnext]
  cases heffect with
  | newScope name hscopes => exact congrArg Workspace.scope (scopeAt_of_append hscopes place)
  | ownReader name source limit hscopes =>
      exact congrArg Workspace.scope (scopeAt_of_append hscopes place)
  | sharing name source shared limit place' hshared hscopes =>
      exact congrArg (fun scopes => (List.getD scopes place seeded).scope) hscopes
  | @taken reply s' target name value place' d scope origin hplace hoffer hassign hscopes =>
      have hlt := hs _ _ hplace
      show (s'.scopeAt place).scope = _
      rw [meant, hplace, scopeAt, hscopes, List.getD_eq_getElem?_getD]
      by_cases hsame : place' = place
      · subst hsame
        rw [List.getElem?_set_self hlt, if_pos rfl, hoffer]
        show scope = (s.scopeAt place').scope.set name d
        rw [Scope.set, hassign]
      · rw [List.getElem?_set_ne hsame, if_neg fun h => hsame (Option.some.inj h), scopeAt,
          List.getD_eq_getElem?_getD]
        rfl
  | kept h hmeant =>
      rw [Scope.setAll_of_refused _ (hmeant place), scopeAt, h.scopes, scopeAt]

/-- Over a run a scope changes by the sets that the steps mean for its place. -/
theorem Placed.scope_after (hs : s.Placed) (steps : List Step) (place : Nat) :
    ((s.after steps).scopeAt place).scope =
      (s.scopeAt place).scope.setAll (s.meantAll place steps) := by
  induction steps generalizing s with
  | nil => rfl
  | cons step steps ih =>
      have hrest : ((s.after (step :: steps)).scopeAt place).scope = _ := ih (hs.next step)
      rw [hrest, hs.scope_next step place, meantAll, Scope.setAll_append]

end Steps

end Session

/-- **A scope is an ordered store, in which the last set wins.**  What it records
of any sets, some of which may be refused, is what `Scope.Records` says.  In a
session every scope records the sets that were meant for its place, and no
others; a step that fails leaves all scopes and references as they were; and two
references come to have one place only when a reader is made for a scope that is
there. -/
theorem scope_records_sets :
    (∀ ops, Scope.Records ops (Scope.seeded.setAll ops)) ∧
    (∀ (sources : Sources) (steps : List Session.Step) (place : Nat),
      (((Session.fresh sources).after steps).scopeAt place).scope =
        Scope.seeded.setAll ((Session.fresh sources).meantAll place steps)) ∧
    (∀ (s s' : Session) (step : Session.Step) (e : Session.Failure),
      Session.step step s = .error e s' → Session.SameScopes s s') ∧
    (∀ (sources : Sources) (steps : List Session.Step) (step : Session.Step)
      (target other : Session.Target) (place : Nat), target ≠ other →
      (((Session.fresh sources).after steps).next step).place? target = some place →
      (((Session.fresh sources).after steps).next step).place? other = some place →
      ((Session.fresh sources).after steps).place? target = some place ∧
        ((Session.fresh sources).after steps).place? other = some place ∨
      ∃ name source shared limit, step = .newReader name source (some shared) limit ∧
        (target = .reader name ∨ other = .reader name)) := by
  refine ⟨Scope.records_setAll, ?_, fun s s' step e => Session.sameScopes_of_error, ?_⟩
  · intro sources steps place
    exact (Session.placed_fresh sources).scope_after steps place
  · intro sources steps step target other place hne h hother
    exact ((Session.placed_fresh sources).after steps).place?_next_inj hne h hother

/-- A name is set, and again to a truth value, which is refused and would count
as another number; a built-in one is set, and a new one. -/
def mixedSets : List (String × Datum) :=
  [("b", .ofInt 5), ("pi", .ofInt 3), ("b", .scalar (.boolean true)), ("a", .ofInt 2)]

/-- Two scopes, one of which is shared by a reader. -/
def sharedScopes : List Session.Step :=
  [.newScope "s", .newScope "t", .newReader "r" "b" (some "t") .nothing,
    .assign (.reader "r") "b" (.new (.ofInt 1)), .assign (.scope "s") "b" (.new (.ofInt 2))]

/-- Sets that are repeated, and others that are refused. -/
theorem scope_records_sets_mixed :
    (Scope.seeded.setAll mixedSets).find? "b" = some (.constant 0 5.0) ∧
    (Scope.seeded.setAll mixedSets).names = ["e", Scope.misspeltPi, "pi", "b", "a"] ∧
    (∃ fault, (Scope.seeded.setAll mixedSets).resolve "c" 4 = .error fault ∧
      fault.diagnostic.name = some "c" ∧ fault.diagnostic.position = 4) ∧
    (((Session.fresh (.fresh fun _ => 0)).after sharedScopes).scopeAt 0).scope.find? "b" =
      some (.constant 0 2.0) ∧
    (((Session.fresh (.fresh fun _ => 0)).after sharedScopes).scopeAt 1).scope.find? "b" =
      some (.constant 0 1.0) := by
  obtain ⟨hrecords, hsession, -, -⟩ := scope_records_sets
  refine ⟨?_, ?_, ?_, ?_, ?_⟩
  · refine (hrecords mixedSets).last [] "b" (.ofInt 5) _ _ rfl ?_ ?_
    · rfl
    · intro d hd
      simp only [List.mem_cons, Prod.mk.injEq, List.not_mem_nil, or_false] at hd
      rcases hd with ⟨hname, -⟩ | ⟨-, rfl⟩ | ⟨hname, -⟩
      · exact absurd hname (by decide)
      · exact ⟨_, Datum.producer_eq_error.mpr (.truthValue true)⟩
      · exact absurd hname (by decide)
  · rw [(hrecords mixedSets).ordered]
    decide +kernel
  · have hc : "c" ∉ (Scope.seeded.setAll mixedSets).names := by decide +kernel
    obtain ⟨fault, hfault, -, hname, hposition⟩ := (hrecords mixedSets).unresolved "c" 4 hc
    exact ⟨fault, hfault, hname, hposition⟩
  · rw [hsession]
    decide +kernel
  · rw [hsession]
    decide +kernel

end Reckon
