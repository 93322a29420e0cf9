import Reckon.Proofs.Keys
import Reckon.Proofs.Validation
/-!
# The normal form of settings

Validation puts two values into settings: the variables, where there were none,
and the name of the level, in its section.  Everything else stays as it was and
where it was (`Settings.Normalized`).  Settings in normal form pass again, and
both values are put where they are already, so validation is a projection
(`validate_normalizes`).
-/

namespace Reckon

open Association (keys erase)

namespace Settings

/-- What a value that is put leaves as it was, and the place of its key. -/
structure Changed (name : String) (es es' : Entries) : Prop where
  others : erase (.text name) es' = erase (.text name) es
  order : keys es' = keys es ++ if (find? name es).isSome then [] else [.text name]

/-- To put an entry changes that entry only. -/
theorem changed_withEntry (name : String) (d : Datum) (es : Entries) :
    Changed name es (withEntry name d es) where
  others := Association.erase_put (Scalar.beq_text.mpr rfl) d es
  order := Association.keys_put (Scalar.text name) d es

/-- A section of the log with the name of its level in upper case. -/
structure Leveled (old new : Entries) : Prop where
  changed : Changed "level" old new
  named : ∃ name ∈ levelNames, find? "level" new = some (.ofText name) ∧
    capitals ((find? "level" old).getD (.ofText "WARNING")) = .text name

/-- Settings in their normal form. -/
structure Normalized (es es' : Entries) : Prop where
  others : erase (.text "variables") (erase (.text "logging") es') =
    erase (.text "variables") (erase (.text "logging") es)
  order : keys es' = keys es ++ if (find? "variables" es).isSome then [] else [.text "variables"]
  bound : ∃ vars, find? "variables" es' = some (.mapping vars) ∧
    if ((find? "variables" es).getD .nothing).isVoid then vars = []
    else find? "variables" es = some (.mapping vars)
  logging : ∃ old new, find? "logging" es = some (.mapping old) ∧
    find? "logging" es' = some (.mapping new) ∧ Leveled old new

/-- Settings with variables, and with a name in the section of the log. -/
def normalForm (es vars logging : Entries) (name : String) : Entries :=
  withEntry "logging" (.mapping (withEntry "level" (.ofText name) logging))
    (withEntry "variables" (.mapping vars) es)

section NormalForm

variable {es vars logging : Entries} {name : String}

/-- The other parts are as they were. -/
theorem find?_normalForm_of_ne {part : String} (hvariables : part ≠ "variables")
    (hlogging : part ≠ "logging") :
    find? part (normalForm es vars logging name) = find? part es := by
  rw [normalForm, find?_withEntry_of_ne hlogging, find?_withEntry_of_ne hvariables]

/-- The variables are a mapping. -/
theorem find?_variables_normalForm :
    find? "variables" (normalForm es vars logging name) = some (.mapping vars) := by
  rw [normalForm, find?_withEntry_of_ne (by decide), find?_withEntry_self]

/-- The level is the one in capitals. -/
theorem find?_logging_normalForm : find? "logging" (normalForm es vars logging name) =
    some (.mapping (withEntry "level" (.ofText name) logging)) :=
  find?_withEntry_self _ _ _

/-- The normal form of a normal form is itself: both values are there. -/
theorem normalForm_normalForm :
    normalForm (normalForm es vars logging name) vars (withEntry "level" (.ofText name) logging)
      name = normalForm es vars logging name := by
  have hbound : withEntry "variables" (.mapping vars) (normalForm es vars logging name) =
      normalForm es vars logging name := Association.put_of_get? find?_variables_normalForm
  have hlevel : withEntry "level" (.ofText name) (withEntry "level" (.ofText name) logging) =
      withEntry "level" (.ofText name) logging :=
    Association.put_of_get? (find?_withEntry_self _ _ _)
  rw [normalForm, hbound, hlevel]
  exact Association.put_of_get? find?_logging_normalForm

/-- Names of levels are in upper case. -/
theorem capitals_levelName (h : name ∈ levelNames) : capitals (.ofText name) = .text name := by
  have hupper : ∀ name ∈ levelNames, Text.upper name = name := by decide +kernel
  exact congrArg Scalar.text (hupper name h)

/-- What passes still does in its normal form. -/
theorem Passes.again (h : Passes es vars logging name) :
    Passes (normalForm es vars logging name) vars (withEntry "level" (.ofText name) logging)
      name where
  depth := by
    rw [find?_normalForm_of_ne (by decide) (by decide)]
    exact h.depth
  precision := by
    rw [find?_normalForm_of_ne (by decide) (by decide)]
    exact h.precision
  log := find?_logging_normalForm
  found := by
    rw [bindings_eq_ok, find?_variables_normalForm]
    cases vars <;> simp [Datum.isVoid]
  checked := h.checked
  level := by
    have hname := (level_eq_ok.mp h.level).2.2
    rw [level_eq_ok, find?_withEntry_self]
    exact ⟨rfl, capitals_levelName hname, hname⟩

/-- Settings that pass differ from their normal form in two values. -/
theorem Passes.normalized (h : Passes es vars logging name) :
    Normalized es (normalForm es vars logging name) := by
  obtain ⟨-, hcapitals, hname⟩ := level_eq_ok.mp h.level
  have hbound := changed_withEntry "variables" (.mapping vars) es
  have hlog := changed_withEntry "logging"
    (.mapping (withEntry "level" (.ofText name) logging)) (withEntry "variables" (.mapping vars) es)
  refine ⟨?_, ?_, ?_, ?_⟩
  · calc erase (.text "variables") (erase (.text "logging") _)
      _ = erase (.text "variables") (erase (.text "logging")
            (withEntry "variables" (.mapping vars) es)) := congrArg _ hlog.others
      _ = erase (.text "logging") (erase (.text "variables") es) := by
            rw [Association.erase_comm, hbound.others]
      _ = erase (.text "variables") (erase (.text "logging") es) := Association.erase_comm _ _ _
  · have hfound : find? "logging" (withEntry "variables" (.mapping vars) es) =
        some (.mapping logging) := by
      rw [find?_withEntry_of_ne (by decide), h.log]
    calc keys (normalForm es vars logging name)
      _ = keys (withEntry "variables" (.mapping vars) es) := by
            rw [normalForm, hlog.order, hfound]
            exact List.append_nil _
      _ = _ := hbound.order
  · exact ⟨vars, find?_variables_normalForm, bindings_eq_ok.mp h.found⟩
  · refine ⟨logging, _, h.log, find?_logging_normalForm, changed_withEntry _ _ _, ?_⟩
    exact ⟨name, hname, find?_withEntry_self _ _ _, hcapitals⟩

end NormalForm

/-- **Validation touches two values and nothing else**, and it is a projection. -/
theorem validate_normalizes {es es' : Entries} (h : validate es = .ok es') :
    Normalized es es' ∧ validate es' = .ok es' := by
  obtain ⟨vars, logging, name, hpasses, rfl⟩ := validate_eq_ok.mp h
  refine ⟨hpasses.normalized, validate_eq_ok.mpr ?_⟩
  exact ⟨vars, _, name, hpasses.again, normalForm_normalForm.symm⟩

/-- Settings with a section of their own, variables that are nothing, and a
level in small letters. -/
def plainSettings : Entries :=
  [(.text "logging", .mapping [(.text "level", .ofText "debug"), (.text "file", .ofText "log")]),
    (.text "parser", .mapping [(.text "max_depth", .ofInt 7)]), (.text "theme", .ofText "dark"),
    (.text "variables", .nothing), (.text "output", .mapping [])]

/-- The variables and the level are put in their places. -/
theorem validate_normalizes_plain : ∃ es', validate plainSettings = .ok es' ∧
    keys es' = keys plainSettings ∧ find? "variables" es' = some (.mapping []) ∧
    validate es' = .ok es' := by
  have hvalid : validate plainSettings = .ok (normalForm plainSettings []
      [(.text "level", .ofText "debug"), (.text "file", .ofText "log")] "DEBUG") := rfl
  obtain ⟨hnormal, hagain⟩ := validate_normalizes hvalid
  exact ⟨_, hvalid, hnormal.order.trans (List.append_nil _), find?_variables_normalForm, hagain⟩

end Settings

end Reckon
