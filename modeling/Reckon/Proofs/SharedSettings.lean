import Reckon.Proofs.SharedMemory
/-!
# Loading into memory

To load settings into memory makes a new mapping with the settings that the
file gives (`loadInto_follows`): the defaults, or a copy of them under what the
file says, which is normalised in place.  All else in memory is left alone,
the defaults too.
-/

namespace Reckon.Settings

open Layout

variable {m m₁ : Memory} {a : Address} {parts : Parts} {α β α' β' : Type} {used : List Address}

/-! ### Following a function on settings -/

variable {ε : Type} {toFault : ε → Fault}

/-- Work in memory comes to what a function comes to: the answers go together,
or the fault is the same, and then no mapping was changed but some that were
given. -/
def Follows (toFault : ε → Fault) (m : Memory) (used : List Address)
    (post : α → β → Memory → Prop) : Except ε α → EStateM.Result Fault Memory β → Prop
  | .ok x, .ok y m' => post x y m'
  | .error e, .error f m' => f = toFault e ∧ Changes used m m'
  | _, _ => False

namespace Follows

variable {post : α → β → Memory → Prop} {r : EStateM.Result Fault Memory β}

/-- Work that follows an answer answers so. -/
theorem of_ok {x : α} (h : Follows toFault m used post (.ok x) r) :
    ∃ y m', r = .ok y m' ∧ post x y m' := by
  cases r with
  | ok y m' => exact ⟨y, m', rfl, h⟩
  | error f m' => exact h.elim

/-- Work that follows a fault fails so. -/
theorem of_error {e : ε} (h : Follows toFault m used post (.error e) r) :
    ∃ m', r = .error (toFault e) m' ∧ Changes used m m' := by
  cases r with
  | ok y m' => exact h.elim
  | error f m' => exact ⟨m', by rw [h.1], h.2⟩

/-- Work follows a sequence if its parts follow. -/
theorem bind {post' : α' → β' → Memory → Prop} {x : Except ε α} {y : Trying β}
    {f : α → Except ε α'} {g : β → Trying β'} (hxy : Follows toFault m used post x (y m₁))
    (hfg : ∀ c d m', post c d m' → Follows toFault m used post' (f c) (g d m')) :
    Follows toFault m used post' (x >>= f) ((y >>= g) m₁) := by
  cases x with
  | ok c =>
      obtain ⟨d, m', hy, hpost⟩ := hxy.of_ok
      rw [bind_of_ok hy]
      exact hfg c d m' hpost
  | error e =>
      obtain ⟨m', hy, hchanges⟩ := hxy.of_error
      rw [bind_eq_error.mpr (.inl hy)]
      exact ⟨rfl, hchanges⟩

end Follows

/-- Work that cannot fail, among work that can. -/
theorem modifyGet_eq {work : InMemory α} {x : α} (h : work m = (x, m₁)) :
    (modifyGet work : Trying α) m = .ok x m₁ :=
  congrArg (fun r : α × Memory => EStateM.Result.ok r.1 r.2) h

/-- A check of settings leaves memory as it is. -/
theorem check_follows (h : Changes used m m₁) (x : Except SettingsFault α) :
    Follows .settings m used (fun c d m' => c = d ∧ m' = m₁) x (Trying.check x m₁) := by
  cases x with
  | ok c => exact ⟨rfl, rfl⟩
  | error f => exact ⟨rfl, h⟩

/-- A check that refuses a datum unless it holds. -/
theorem checked_follows {post : α → β → Memory → Prop} {holds : Bool} {shown : Datum}
    {fault : SettingsFault} {x : Except SettingsFault α} {y : Trying β} (h : Changes used m m₁)
    (hxy : Follows .settings m used post x (y m₁)) :
    Follows .settings m used post
      (if (!holds) = true then (do refuse (α := Unit) shown fault; x) else x)
      ((if (!holds) = true then (do Trying.check (refuse (α := Unit) shown fault); y) else y)
        m₁) := by
  split
  · refine (check_follows h _).bind fun c d m' hsame => ?_
    rw [hsame.2]
    exact hxy
  · exact hxy

/-! ### Validation -/

/-- A section of the entries is the datum of its part. -/
theorem find?_entries (name : String) (parts : Parts) :
    find? name parts.entries = (parts.get? (.text name)).map datum :=
  Parts.get?_entries (.text name) parts

section Part

variable {key : Scalar} {l : Layout} {d : Datum}

/-- A part of a mapping lies apart by itself. -/
theorem apart_part (h : Apart m [.mapping a parts]) (hget : parts.get? key = some l) :
    Apart m [l] :=
  Parts.apart_of_get? (Apart.mapping.mp h).2.1 hget

/-- What lies under a key is a mapping, or a datum that is none. -/
theorem entries?_of_leaf (h : Apart m [.mapping a parts])
    (hget : parts.get? key = some (.leaf d)) : d.entries? = none := by
  simpa [Lies] using (apart_part h hget).lies _ List.mem_cons_self

end Part

/-- A section is the same mapping in memory. -/
theorem part_follows (h : Apart m [.mapping a parts]) (name : String) :
    Follows .settings m used (fun inner b m' => m' = m ∧ ∃ below, Parts.entries below = inner ∧
        m.entries b = inner ∧ parts.get? (.text name) = some (.mapping b below))
      (part name parts.entries) (Trying.part name a m) := by
  unfold Trying.part
  rw [bind_of_ok (x := get) rfl]
  simp only [slot?_eq h name, part, required, find?_entries]
  cases hget : parts.get? (.text name) with
  | none => exact ⟨rfl, .refl _ _⟩
  | some l =>
      cases l with
      | leaf d =>
          simp only [Option.map_some, datum, except_ok_bind, entries?_of_leaf h hget]
          exact ⟨rfl, .refl _ _⟩
      | mapping b below =>
          simp only [Option.map_some, datum_mapping]
          exact ⟨rfl, below, rfl, (apart_part h hget).entries_eq, rfl⟩

/-- To write what stands there changes nothing. -/
theorem put_slot {name : String} {slot : Slot} (h : m.slot? a name = some slot) :
    m.put a (.text name) slot = m := by
  refine List.ext_getElem? fun b => ?_
  rw [Memory.put, List.getElem?_modify]
  cases hb : m[b]? with
  | none => rfl
  | some cells =>
      by_cases hab : a = b
      · subst hab
        have hcells : m.cellsAt a = cells := by
          rw [Memory.cellsAt, List.getD_eq_getElem?_getD, hb]
          rfl
        rw [Memory.slot?, hcells] at h
        simp [Association.put_of_get? h]
      · simp [hab]

/-- The variables are the same mapping in memory, or a new one. -/
theorem bindings_follows (h : Apart m [.mapping a parts]) :
    Follows .settings m (ownedBy [.mapping a parts])
      (fun vars b m₁ => ∃ below, Parts.entries below = vars ∧ m₁.entries b = vars ∧
        Changes (ownedBy [.mapping a parts]) m m₁ ∧
        Turns m [.mapping a parts] (m₁.put a (.text "variables") (.mapping b))
          [.mapping a (parts.put (.text "variables") (.mapping b below))])
      (bindings parts.entries) (Trying.bindings a m) := by
  have hnone : Apart m (Parts.layouts []) := .nil m
  have hnew : Turns m [] (m ++ [[]]) [.mapping m.length []] := allocate_turns hnone
  have hempty : ∃ below, Parts.entries below = [] ∧ (m ++ [[]] : Memory).entries m.length = [] ∧
      Changes (ownedBy [.mapping a parts]) m (m ++ [[]]) ∧
      Turns m [.mapping a parts]
        ((m ++ [[]] : Memory).put a (.text "variables") (.mapping m.length))
        [.mapping a (parts.put (.text "variables") (.mapping m.length below))] :=
    ⟨[], rfl, hnew.apart.entries_eq, (hnew.instead _).changes, write_new_turns h hnew _⟩
  have hslot := slot?_eq h "variables"
  unfold Trying.bindings bindings
  rw [bind_of_ok (x := get) rfl, find?_entries]
  cases hget : parts.get? (.text "variables") with
  | none =>
      rw [hget] at hslot
      simp only [hslot]
      exact hempty
  | some l =>
      rw [hget] at hslot
      have hdatum : m.datum l.slot = l.datum :=
        (apart_part h hget).datum_eq List.mem_cons_self
      simp only [hslot, Option.map_some, hdatum]
      by_cases hvoid : l.datum.isVoid = true
      · simp only [hvoid, if_true]
        exact hempty
      · simp only [hvoid]
        cases l with
        | leaf d =>
            simp only [datum, entries?_of_leaf h hget]
            exact ⟨rfl, .refl _ _⟩
        | mapping b below =>
            simp only [datum_mapping]
            refine ⟨below, rfl, (apart_part h hget).entries_eq, .refl _ _, ?_⟩
            have hsame : parts.put (.text "variables") (.mapping b below) = parts :=
              Association.put_of_get? hget
            have hkept : m.put a (.text "variables") (.mapping b) = m := put_slot hslot
            rw [hkept, hsame]
            exact .refl h

/-- **Validation in memory** is validation, and normalises what it is given in
place. -/
theorem validate_follows (h : Apart m [.mapping a parts]) :
    Follows .settings m (ownedBy [.mapping a parts])
      (fun es _ m' => ∃ parts', Parts.entries parts' = es ∧
        Turns m [.mapping a parts] m' [.mapping a parts'])
      (validate parts.entries) (Trying.validate a m) := by
  unfold validate Trying.validate
  refine (part_follows h "parser").bind ?_
  rintro _ parser _ ⟨rfl, parserParts, rfl, hparser, -⟩
  refine (part_follows h "output").bind ?_
  rintro _ output _ ⟨rfl, outputParts, rfl, -, houtput⟩
  refine (part_follows h "logging").bind ?_
  rintro _ logging _ ⟨rfl, loggingParts, rfl, -, hlogging⟩
  rw [bind_of_ok (x := get) rfl]
  dsimp only
  rw [hparser]
  refine checked_follows (.refl _ _) ?_
  refine (bindings_follows h).bind ?_
  rintro _ vars m₁ ⟨varParts, rfl, hvars, hchanges, hturns⟩
  rw [bind_of_ok (x := get) rfl, hvars]
  refine (check_follows hchanges _).bind ?_
  rintro _ _ _ ⟨-, rfl⟩
  -- the variables are in place now, and the other sections are where they were
  have houtput' : (parts.put (.text "variables") (.mapping vars varParts)).get? (.text "output") =
      some (.mapping output outputParts) :=
    (Association.get?_put_text_of_ne (by decide) _ _).trans houtput
  have hlogging' : (parts.put (.text "variables") (.mapping vars varParts)).get? (.text "logging") =
      some (.mapping logging loggingParts) :=
    (Association.get?_put_text_of_ne (by decide) _ _).trans hlogging
  have hlog := apart_part hturns.apart hlogging'
  rw [bind_of_ok (x := modify _) rfl, bind_of_ok (x := get) rfl]
  rw [(apart_part hturns.apart houtput').entries_eq]
  refine checked_follows hturns.changes ?_
  rw [bind_of_ok (x := get) rfl, hlog.entries_eq]
  refine (check_follows hturns.changes _).bind ?_
  rintro name _ _ ⟨rfl, rfl⟩
  have hlevel := write_new_turns hlog (leaf_turns (d := .ofText name) rfl _) (.text "level")
  refine ⟨_, ?_, hturns.trans (part_turns hturns.apart hlogging' hlevel rfl)⟩
  rw [Parts.entries_put, Parts.entries_put, datum_mapping, datum_mapping, Parts.entries_put, datum]
  rfl

/-! ### Loading -/

/-- The settings that a datum gives are what it lays over the defaults,
validated. -/
theorem ofDatum_eq (d : Datum) :
    ofDatum d = match overrideOf d with
      | [] => .ok defaults
      | given => (validate (Datum.merge defaults given)).mapError .settings := by
  cases d with
  | mapping es => cases es <;> rfl
  | scalar | list | supplier | tree => rfl

/-- And so are those in a file. -/
theorem load_eq (reader : Reader) (path : String) (entry : Option FileEntry) :
    load reader path entry = (do
      match ← overrideIn reader path entry with
      | [] => .ok defaults
      | given => (validate (Datum.merge defaults given)).mapError .settings) := by
  cases entry with
  | none => rfl
  | some entry =>
      show (read reader path entry >>= ofDatum) = ((read reader path entry).map overrideOf >>= _)
      cases read reader path entry with
      | error f => rfl
      | ok d => exact ofDatum_eq d

/-- **To load into memory** makes a new mapping with the settings of the file,
and fails as they do; all that was in memory stays as it was. -/
theorem loadInto_follows {d : Address} (h : Apart m [.mapping d parts])
    (hdefaults : parts.entries = defaults) (reader : Reader) (path : String)
    (entry : Option FileEntry) :
    Follows id m [] (fun es b m' => ∃ loaded, Parts.entries loaded = es ∧
        Turns m [] m' [.mapping b loaded])
      (load reader path entry) (loadInto reader d path entry m) := by
  obtain ⟨b, copy, m₁, hcopy, hcopied, hfirst⟩ := deepCopy_turns h
  rw [load_eq]
  unfold loadInto
  cases overrideIn reader path entry with
  | error f => exact ⟨rfl, .refl _ _⟩
  | ok given =>
      cases given with
      | nil =>
          show Follows _ _ _ _ _ ((modifyGet (Memory.deepCopy d) : Trying Address) m)
          rw [modifyGet_eq hcopy]
          exact ⟨copy, hcopied.trans hdefaults, hfirst⟩
      | cons e es =>
          obtain ⟨c, merged, m₂, hmerge, hentries, hsecond⟩ := merge_turns hfirst.apart (e :: es)
          have hvalidate := validate_follows hsecond.apart
          rw [hentries, hcopied, hdefaults] at hvalidate
          -- all that validation changes is new, also when it fails
          have hmade := hfirst.trans hsecond
          show Follows id m [] _ ((validate (Datum.merge defaults (e :: es))).mapError .settings)
            ((do
              let base ← modifyGet (Memory.deepCopy d)
              let a ← modifyGet (Memory.merge base (e :: es))
              Trying.validate a
              return a : Trying Address) m)
          rw [bind_of_ok (modifyGet_eq hcopy), bind_of_ok (modifyGet_eq hmerge)]
          cases hvalid : validate (Datum.merge defaults (e :: es)) with
          | ok es' =>
              rw [hvalid] at hvalidate
              obtain ⟨u, m₃, hok, parts', hes', hthird⟩ := hvalidate.of_ok
              rw [bind_of_ok hok]
              exact ⟨parts', hes', hmade.trans hthird⟩
          | error f =>
              rw [hvalid] at hvalidate
              obtain ⟨m₃, herror, hchanges⟩ := hvalidate.of_error
              rw [bind_eq_error.mpr (.inl herror)]
              exact ⟨rfl, hmade.changes_trans hchanges⟩

/-! ### Edits -/

/-- **An edit in place** is the edit of what lies there. -/
theorem applyAt_turns (h : Apart m [.mapping a parts]) (edit : Edit) :
    ∃ parts', Parts.entries parts' = edit.apply parts.entries ∧
      Turns m [.mapping a parts] (edit.applyAt a m).2 [.mapping a parts'] := by
  cases edit with
  | set key value =>
      obtain ⟨l, m₁, hplace, hdatum, hnew⟩ := place_turns value m
      have hrun : ((Edit.set key value).applyAt a m).2 =
          (Memory.place value m).2.put a key (Memory.place value m).1 := rfl
      rw [hrun, hplace]
      exact ⟨parts.put key l, by rw [Parts.entries_put, hdatum, Edit.apply],
        write_new_turns h hnew key⟩
  | remove key => exact ⟨parts.erase key, Parts.entries_erase .., erase_turns h key⟩

/-- An edit goes to the mapping of the variables, if there is one. -/
theorem editVariablesAt_eq (a : Address) (edit : Edit) (m : Memory) :
    (editVariablesAt a edit m).2 = match m.slot? a "variables" with
      | some (.mapping vars) => (edit.applyAt vars m).2
      | _ => m := by
  have hget : editVariablesAt a edit m = (match m.slot? a "variables" with
      | some (.mapping vars) => edit.applyAt vars
      | _ => return () : InMemory Unit) m := rfl
  rw [hget]
  cases m.slot? a "variables" with
  | none => rfl
  | some slot => cases slot <;> rfl

/-- To edit the variables in place is to edit them in the settings. -/
theorem editVariablesAt_turns (h : Apart m [.mapping a parts]) (edit : Edit) :
    ∃ parts', Parts.entries parts' = editVariables edit parts.entries ∧
      Turns m [.mapping a parts] (editVariablesAt a edit m).2 [.mapping a parts'] := by
  rw [editVariablesAt_eq, slot?_eq h, editVariables, find?_entries]
  cases hget : parts.get? (.text "variables") with
  | none => exact ⟨parts, rfl, .refl h⟩
  | some l =>
      cases l with
      | leaf d =>
          refine ⟨parts, ?_, .refl h⟩
          simp [datum, entries?_of_leaf h hget]
      | mapping b below =>
          obtain ⟨below', hentries, hturns⟩ := applyAt_turns (apart_part h hget) edit
          refine ⟨parts.put (.text "variables") (.mapping b below'), ?_, ?_⟩
          · rw [Parts.entries_put, datum_mapping, hentries]
            simp [datum_mapping, Datum.entries?, withEntry]
          · exact part_turns h hget hturns rfl

end Reckon.Settings
