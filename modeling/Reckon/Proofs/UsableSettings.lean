import Reckon.Calculation
import Reckon.Proofs.Places
import Reckon.Proofs.Validation
/-!
# Settings that can be used

What is loaded has a depth limit, variables that are numbers and a precision
that is not negative (`usable_of_load`).  So a calculation under it begins with
every variable bound, in order, and writes every result
(`serves_of_load`), but for one thing: validation does not ask whether an
integer is in the range of doubles, and binding one that is not fails
(`passed_variable_is_refused`).
-/

namespace Reckon

/-- A desk on which doubles were bound to names, one after the other. -/
def Desk.withVariables (d : Desk) (bound : List (String × Float)) : Desk where
  scope := bound.foldl (fun scope v => scope.bind v.1 (.constant 0 v.2)) d.scope
  sources := d.sources
  journal := d.journal ++ bound.map fun v => .bound v.1 (.constant 0 v.2)

theorem Desk.withVariables_nil (d : Desk) : d.withVariables [] = d := by
  simp [withVariables]

/-- The first variable is bound first. -/
theorem Desk.withVariables_cons (d : Desk) (v : String × Float) (bound : List (String × Float)) :
    d.withVariables (v :: bound) = (d.withVariables [v]).withVariables bound := by
  simp [withVariables]

namespace Settings

/-- Variables with doubles for their numbers, if all of those are in range. -/
def converted? (vars : List (String × Number)) : Option (List (String × Float)) :=
  vars.mapM fun v => v.2.toDouble?.map (v.1, ·)

theorem converted?_cons (v : String × Number) (rest : List (String × Number)) :
    converted? (v :: rest) =
      (v.2.toDouble?).bind fun x => (converted? rest).map fun bound => (v.1, x) :: bound := by
  rw [converted?, List.mapM_cons]
  cases v.2.toDouble? with
  | none => rfl
  | some x =>
      show (converted? rest).bind _ = _
      cases converted? rest <;> rfl

/-- A number out of range is all that stands in the way. -/
theorem converted?_eq_none {vars : List (String × Number)} :
    converted? vars = none ↔ ∃ v ∈ vars, v.2.toDouble? = none := by
  induction vars with
  | nil => exact iff_of_false (fun h => nomatch h) (by simp)
  | cons v rest ih =>
      rw [converted?_cons]
      cases hx : v.2.toDouble? with
      | none => exact iff_of_true rfl ⟨v, List.mem_cons_self, hx⟩
      | some x => simp [hx, ih]

/-! ### What is loaded -/

/-- Settings with a depth limit, variables that are numbers, and a precision
that is not negative. -/
structure Usable (es : Entries) (depth : Int) (vars : List (String × Number)) : Prop where
  limit : ∃ parser, find? "parser" es = some (.mapping parser) ∧
    find? "max_depth" parser = some (.ofInt depth)
  positive : 1 ≤ depth
  named : find? "variables" es = some (.mapping (variableEntries vars))
  places : ∀ n, places? es = some n → 0 ≤ n

/-- A precision that passes is not negative. -/
theorem nonneg_of_places? {es output : Entries}
    (houtput : find? "output" es = some (.mapping output))
    (h : isPrecision ((find? "precision" output).getD .nothing) = true)
    {n : Int} (hn : places? es = some n) : 0 ≤ n := by
  unfold places? at hn
  rw [houtput] at hn
  split at hn
  · next s hs =>
      have hfound : find? "precision" output = some (.scalar s) := hs
      rw [hfound] at h
      split at hn
      · next m hcount =>
          cases hn
          exact nonneg_of_isPrecision h hcount
      · cases hn
  · cases hn

theorem usable_of_validate {es es' : Entries} (h : validate es = .ok es') :
    ∃ depth vars, Usable es' depth vars := by
  obtain ⟨given, logging, name, hpasses, rfl⟩ := validate_eq_ok.mp h
  obtain ⟨parser, depth, hparser, hdepth, hlimit⟩ := hpasses.depth
  obtain ⟨output, houtput, hprecision⟩ := hpasses.precision
  obtain ⟨vars, rfl, -⟩ := checkVariables_eq_ok.mp hpasses.checked
  refine ⟨depth, vars, ⟨parser, ?_, hlimit⟩, hdepth, ?_, ?_⟩
  · rw [find?_withEntry_of_ne (by decide), find?_withEntry_of_ne (by decide), hparser]
  · rw [find?_withEntry_of_ne (by decide), find?_withEntry_self]
  · refine fun n hn => nonneg_of_places? ?_ hprecision hn
    rw [find?_withEntry_of_ne (by decide), find?_withEntry_of_ne (by decide), houtput]

theorem usable_defaults : Usable defaults 100 [] where
  limit := ⟨_, rfl, rfl⟩
  positive := by decide
  named := rfl
  places := fun n hn => nomatch hn

/-- What a datum gives is usable, whatever the datum. -/
theorem usable_of_ofDatum {d : Datum} {es : Entries} (h : ofDatum d = .ok es) :
    ∃ depth vars, Usable es depth vars := by
  unfold ofDatum at h
  split at h
  · next e rest =>
      cases hvalid : validate (Datum.merge defaults (e :: rest)) with
      | ok es' =>
          rw [hvalid] at h
          cases h
          exact usable_of_validate hvalid
      | error f =>
          rw [hvalid] at h
          cases h
  · cases h
    exact ⟨100, [], usable_defaults⟩

/-- **What is loaded is usable**, by whatever reader. -/
theorem usable_of_load {reader : Reader} {path : String} {entry : Option FileEntry} {es : Entries}
    (h : load reader path entry = .ok es) : ∃ depth vars, Usable es depth vars := by
  cases entry with
  | none =>
      cases h
      exact ⟨100, [], usable_defaults⟩
  | some entry =>
      obtain ⟨d, -, hgiven⟩ := except_bind_eq_ok.mp h
      exact usable_of_ofDatum hgiven

/-! ### What it is used for -/

/-- A number in range is bound. -/
theorem assign_of_toDouble? {n : Number} {x : Float} (hx : n.toDouble? = some x) (name : String)
    (d : Desk) :
    Work.assign name (.scalar (.number n)) d = .ok () (d.withVariables [(name, x)]) := by
  rw [Work.assign, Datum.producer, hx]
  rfl

/-- A number out of range is refused. -/
theorem assign_of_out_of_range {n : Number} (hn : n.toDouble? = none) (name : String) (d : Desk) :
    Work.assign name (.scalar (.number n)) d = .error (.refusal .tooLarge) d := by
  rw [Work.assign, Datum.producer, hn]
  rfl

/-- Numbers in range are bound one after the other. -/
theorem assignEntries_of_converted? {vars : List (String × Number)}
    {bound : List (String × Float)} (h : converted? vars = some bound) (d : Desk) :
    Work.assignEntries (variableEntries vars) d = .ok () (d.withVariables bound) := by
  induction vars generalizing bound d with
  | nil =>
      obtain rfl : [] = bound := Option.some.inj h
      rw [Desk.withVariables_nil]
      rfl
  | cons v rest ih =>
      rw [converted?_cons] at h
      obtain ⟨x, hx, h⟩ := Option.bind_eq_some_iff.mp h
      obtain ⟨bound, hrest, rfl⟩ := Option.map_eq_some_iff.mp h
      rw [Desk.withVariables_cons]
      exact (bind_of_ok (assign_of_toDouble? hx v.1 d) _).trans (ih hrest _)

/-- With a number out of range the work fails, when those before it are bound. -/
theorem assignEntries_of_out_of_range {vars : List (String × Number)}
    (h : converted? vars = none) (d : Desk) :
    ∃ d', Work.assignEntries (variableEntries vars) d = .error (.refusal .tooLarge) d' := by
  induction vars generalizing d with
  | nil => cases h
  | cons v rest ih =>
      rw [converted?_cons] at h
      cases hx : v.2.toDouble? with
      | none => exact ⟨d, bind_eq_error.mpr (.inl (assign_of_out_of_range hx v.1 d))⟩
      | some x =>
          rw [hx] at h
          obtain ⟨d', hd'⟩ := ih (Option.map_eq_none_iff.mp h) (d.withVariables [(v.1, x)])
          exact ⟨d', bind_eq_error.mpr (.inr ⟨_, _, assign_of_toDouble? hx v.1 d, hd'⟩)⟩

namespace Usable

variable {es : Entries} {depth : Int} {vars : List (String × Number)}

/-- To apply usable settings is to bind their variables. -/
theorem applySettings_eq (h : Usable es depth vars) :
    Work.applySettings es = (do
      Work.assignEntries (variableEntries vars)
      return .ofInt depth) := by
  obtain ⟨parser, hparser, hdepth⟩ := h.limit
  have hlimit : Settings.limit es = .ok (.ofInt depth) := by
    have hsection : entryOf "parser" (.mapping es) = .ok (.mapping parser) := by
      rw [entryOf, required, hparser]
      rfl
    have hentry : entryOf "max_depth" (.mapping parser) = .ok (.ofInt depth) := by
      rw [entryOf, required, hdepth]
      rfl
    exact except_bind_eq_ok.mpr ⟨_, hsection, hentry⟩
  have hbindings : bindingsIn es = .ok (variableEntries vars) := by
    have hentry : entryOf "variables" (.mapping es) = .ok (.mapping (variableEntries vars)) := by
      rw [entryOf, required, h.named]
      rfl
    exact except_bind_eq_ok.mpr ⟨_, hentry, rfl⟩
  rw [Work.applySettings, hlimit, hbindings]
  rfl

/-- With numbers in range, work begins with every variable bound. -/
theorem applySettings_of_converted? (h : Usable es depth vars) {bound : List (String × Float)}
    (hbound : converted? vars = some bound) (d : Desk) :
    Work.applySettings es d = .ok (.ofInt depth) (d.withVariables bound) := by
  rw [h.applySettings_eq]
  exact bind_of_ok (assignEntries_of_converted? hbound d) _

/-- With a number out of range, work does not begin. -/
theorem applySettings_of_out_of_range (h : Usable es depth vars) (hbound : converted? vars = none)
    (d : Desk) : ∃ d', Work.applySettings es d = .error (.refusal .tooLarge) d' := by
  obtain ⟨d', hd'⟩ := assignEntries_of_out_of_range hbound d
  rw [h.applySettings_eq]
  exact ⟨d', bind_eq_error.mpr (.inl hd')⟩

/-- Every result is written. -/
theorem formatValue_eq_ok (h : Usable es depth vars) (x : Float) :
    ∃ y, formatValue x (places? es) = .ok (Double.text y) := by
  unfold formatValue
  cases hplaces : places? es with
  | none => exact ⟨x, rfl⟩
  | some n =>
      obtain ⟨y, hy⟩ := Option.isSome_iff_exists.mp
        (Double.isSome_roundToPlaces? x (h.places n hplaces))
      exact ⟨y, by simp [hy]⟩

end Usable

/-- What settings serve for, with their depth limit and their variables. -/
structure Serves (es : Entries) (depth : Int) (vars : List (String × Number)) : Prop where
  /-- They are the settings of this limit, and of these variables. -/
  usable : Usable es depth vars
  /-- With numbers in range, work begins with the built-in constants and every
  variable bound to its double, in order, and under the limit. -/
  applied : ∀ sources bound, converted? vars = some bound →
    Work.applySettings es (Desk.fresh sources) =
      .ok (.ofInt depth) ((Desk.fresh sources).withVariables bound)
  /-- With a number out of range, work does not begin. -/
  refused : ∀ sources, (∃ v ∈ vars, v.2.toDouble? = none) →
    ∃ d, Work.applySettings es (Desk.fresh sources) = .error (.refusal .tooLarge) d
  /-- Every result is written. -/
  written : ∀ x, ∃ text, formatValue x (places? es) = .ok text

/-- **What is loaded serves for calculating**, whatever the reader makes of the
file, unless it holds an integer out of the range of doubles. -/
theorem serves_of_load {reader : Reader} {path : String} {entry : Option FileEntry} {es : Entries}
    (h : load reader path entry = .ok es) : ∃ depth vars, Serves es depth vars := by
  obtain ⟨depth, vars, husable⟩ := usable_of_load h
  refine ⟨depth, vars, husable, ?_, ?_, ?_⟩
  · intro sources bound hbound
    exact husable.applySettings_of_converted? hbound _
  · intro sources hrange
    exact husable.applySettings_of_out_of_range (converted?_eq_none.mpr hrange) _
  · intro x
    obtain ⟨y, hy⟩ := husable.formatValue_eq_ok x
    exact ⟨_, hy⟩

/-- A reader that knows what one text holds, and no other YAML. -/
def knowing (text : List UInt8) (d : Datum) : Reader := fun bytes =>
  if bytes = text then .ok d else .error (.malformed fun path => path ++ ": not the text")

/-- A text of settings with a variable and a precision. -/
def gravityText : List UInt8 :=
  "variables:\n  g: 9.81\noutput:\n  precision: 1\n".toUTF8.toList

/-- What it holds. -/
def gravityDatum : Datum :=
  .mapping [(.text "variables", .mapping [(.text "g", .scalar (.number (.double 9.81)))]),
    (.text "output", .mapping [(.text "precision", .ofInt 1)])]

theorem serves_gravity : ∃ es,
    load (knowing gravityText gravityDatum) fileName (some (.file gravityText)) = .ok es ∧
    ∃ depth vars, Serves es depth vars := by
  have hloads : (load (knowing gravityText gravityDatum) fileName
      (some (.file gravityText))).toOption.isSome := by decide +kernel
  cases hes : load (knowing gravityText gravityDatum) fileName (some (.file gravityText)) with
  | ok es => exact ⟨es, rfl, serves_of_load hes⟩
  | error f =>
      rw [hes] at hloads
      cases hloads

/-- A text of settings with a variable of 310 digits. -/
def hugeText : List UInt8 :=
  "variables:\n  a: 1".toUTF8.toList ++ List.replicate 309 '0'.toUInt8

/-- What it holds. -/
def hugeDatum : Datum :=
  .mapping [(.text "variables", .mapping [(.text "a", .ofInt (10 ^ 309))])]

/-- Such a variable passes, and yet it is refused. -/
theorem passed_variable_is_refused : ∃ es d,
    load (knowing hugeText hugeDatum) fileName (some (.file hugeText)) = .ok es ∧
    Work.applySettings es (Desk.fresh (.fresh fun _ => 0)) = .error (.refusal .tooLarge) d := by
  have hfails : (load (knowing hugeText hugeDatum) fileName (some (.file hugeText))).toOption.any
      (fun es => fails (Work.applySettings es (Desk.fresh (.fresh fun _ => 0)))) = true := by
    decide +kernel
  cases hes : load (knowing hugeText hugeDatum) fileName (some (.file hugeText)) with
  | error f =>
      rw [hes] at hfails
      cases hfails
  | ok es =>
      rw [hes] at hfails
      obtain ⟨depth, vars, husable⟩ := usable_of_load hes
      cases hbound : converted? vars with
      | none =>
          obtain ⟨d, hd⟩ := husable.applySettings_of_out_of_range hbound _
          exact ⟨es, d, rfl, hd⟩
      | some bound =>
          have happlied :=
            husable.applySettings_of_converted? hbound (Desk.fresh (.fresh fun _ => 0))
          have hnone : fails (Work.applySettings es (Desk.fresh (.fresh fun _ => 0))) = true :=
            hfails
          rw [happlied] at hnone
          cases hnone

end Settings

end Reckon
