import Reckon.Proofs.Computation
import Reckon.Settings.Loading
/-!
# What validation lets pass

Settings are found under keys that are texts, and a text is no other key.
Validation accepts exactly the settings in which every part that is used has
the form it needs (`validate_eq_ok`).  What is laid over the defaults has all
sections, so it is never refused for a section that is missing
(`validate_merge_failsOnly`): every fault has a diagnostic, unless a message
would have to show an integer with too many digits (`validate_merge_explained`).
-/

namespace Reckon

/-! ### Named entries -/

/-- A text is the same key as itself only. -/
theorem Scalar.beq_text {k : Scalar} {s : String} : (k == .text s) = true ↔ k = .text s := by
  cases k with
  | text t =>
      show (t == s) = true ↔ _
      simp
  | _ => exact iff_of_false (fun h => nomatch h) (fun h => nomatch h)

/-- What has a value still has one when something is put. -/
theorem Association.isSome_get?_put {κ υ : Type} [BEq κ] {k : κ} {entries : List (κ × υ)}
    (h : (get? k entries).isSome) (k' : κ) (v : υ) : (get? k (put k' v entries)).isSome := by
  induction entries with
  | nil => cases h
  | cons entry rest ih =>
      obtain ⟨k₁, v₁⟩ := entry
      rw [get?] at h
      by_cases hk : (k₁ == k) = true
      · rw [put]
        split <;> simp [get?, hk]
      · rw [if_neg hk] at h
        rw [put]
        split
        · simpa [get?, hk] using h
        · simpa [get?, hk] using ih h

/-- A name has the value that was put last. -/
theorem Association.get?_put_text_self {υ : Type} (name : String) (v : υ)
    (entries : List (Scalar × υ)) : get? (.text name) (put (.text name) v entries) = some v := by
  induction entries with
  | nil => exact if_pos (Scalar.beq_text.mpr rfl)
  | cons entry rest ih =>
      obtain ⟨k, w⟩ := entry
      by_cases hk : (k == .text name) = true
      · simp [put, get?, hk]
      · simpa [put, get?, hk] using ih

/-- Every other name keeps its value. -/
theorem Association.get?_put_text_of_ne {υ : Type} {name other : String} (h : name ≠ other)
    (v : υ) (entries : List (Scalar × υ)) :
    get? (.text name) (put (.text other) v entries) = get? (.text name) entries := by
  have hother : ¬ (Scalar.text other == Scalar.text name) = true := by
    intro hsame
    exact h (Scalar.text.inj (Scalar.beq_text.mp hsame)).symm
  induction entries with
  | nil => exact if_neg hother
  | cons entry rest ih =>
      obtain ⟨k, w⟩ := entry
      by_cases hk : (k == .text other) = true
      · obtain rfl := Scalar.beq_text.mp hk
        simp [put, get?, hk, hother]
      · by_cases hname : (k == .text name) = true
        · simp [put, get?, hk, hname]
        · simpa [put, get?, hk, hname] using ih

namespace Settings

variable {es : Entries}

/-- An entry has the value that was given last. -/
theorem find?_withEntry_self (name : String) (d : Datum) (es : Entries) :
    find? name (withEntry name d es) = some d :=
  Association.get?_put_text_self name d es

/-- Every other entry keeps its value. -/
theorem find?_withEntry_of_ne {name other : String} (h : name ≠ other) (d : Datum)
    (es : Entries) : find? name (withEntry other d es) = find? name es :=
  Association.get?_put_text_of_ne h d es

/-- What is laid over a base takes no entry away. -/
theorem isSome_find?_merge {name : String} {base : Entries} (h : (find? name base).isSome)
    (override : Entries) : (find? name (Datum.merge base override)).isSome := by
  induction override generalizing base with
  | nil =>
      rw [Datum.merge, Datum.mergeInto]
      exact h
  | cons entry rest ih =>
      obtain ⟨k, v⟩ := entry
      rw [Datum.merge, Datum.mergeInto]
      exact ih (Association.isSome_get?_put h _ _)

/-! ### Parts -/

/-- A section is the mapping that is found. -/
theorem part_eq_ok {name : String} {inner : Entries} :
    part name es = .ok inner ↔ find? name es = some (.mapping inner) := by
  unfold part required
  cases find? name es with
  | none => exact iff_of_false (fun h => nomatch h) (fun h => nomatch h)
  | some d =>
      cases d with
      | mapping inner' =>
          constructor
          · rintro ⟨⟩
            rfl
          · rintro ⟨⟩
            rfl
      | _ => exact iff_of_false (fun h => nomatch h) (fun h => nomatch h)

/-- Limits of depth are positive integers. -/
theorem isDepth_iff {d : Datum} : isDepth d = true ↔ ∃ n, 1 ≤ n ∧ d = .ofInt n := by
  constructor
  · intro h
    unfold isDepth at h
    split at h
    · next n => exact ⟨n, of_decide_eq_true h, rfl⟩
    · cases h
  · rintro ⟨n, hn, rfl⟩
    exact decide_eq_true hn

/-- Variables with their numbers, as entries of settings. -/
def variableEntries (vars : List (String × Number)) : Entries :=
  vars.map fun v => (.text v.1, .scalar (.number v.2))

/-- A refusal is no answer. -/
theorem refuse_ne_ok {α : Type} {shown : Datum} {f : SettingsFault} {a : α} :
    refuse shown f ≠ .ok a := by
  unfold refuse
  split <;> exact fun h => nomatch h

/-- The variables that pass are names of small letters with numbers. -/
theorem checkVariables_eq_ok {given : Entries} : checkVariables given = .ok () ↔
    ∃ vars, given = variableEntries vars ∧ ∀ v ∈ vars, isVariableName v.1 = true := by
  constructor
  · intro h
    induction given with
    | nil => exact ⟨[], rfl, by simp⟩
    | cons entry rest ih =>
        unfold checkVariables at h
        split at h
        · cases ‹_ :: _ = []›
        · next name value rest' hentry =>
            cases hentry
            by_cases hname : isVariableName name = true
            · rw [if_pos hname] at h
              split at h
              · next n =>
                  obtain ⟨vars, rfl, hnames⟩ := ih h
                  exact ⟨(name, n) :: vars, rfl, List.forall_mem_cons.mpr ⟨hname, hnames⟩⟩
              · exact absurd h refuse_ne_ok
            · rw [if_neg hname] at h
              cases h
        · exact absurd h refuse_ne_ok
  · rintro ⟨vars, rfl, hnames⟩
    induction vars with
    | nil => rfl
    | cons v rest ih =>
        obtain ⟨hname, hrest⟩ := List.forall_mem_cons.mp hnames
        exact (if_pos hname).trans (ih hrest)

/-- Variables that are absent or void are none at all. -/
theorem bindings_eq_ok {vars : Entries} : bindings es = .ok vars ↔
    if ((find? "variables" es).getD .nothing).isVoid then vars = []
    else find? "variables" es = some (.mapping vars) := by
  unfold bindings
  cases find? "variables" es with
  | none => simp [Datum.nothing, Datum.isVoid, eq_comm]
  | some d =>
      by_cases hvoid : d.isVoid = true
      · simp [hvoid, eq_comm]
      · cases d <;> simp [hvoid, Datum.entries?]

/-- The level that passes is a name, and the upper-case text of what is given. -/
theorem level_eq_ok {logging : Entries} {name : String} : level logging = .ok name ↔
    ((find? "level" logging).getD (.ofText "WARNING")).isWritable = true ∧
      capitals ((find? "level" logging).getD (.ofText "WARNING")) = .text name ∧
      name ∈ levelNames := by
  unfold level
  generalize (find? "level" logging).getD (.ofText "WARNING") = given
  dsimp only
  cases given.isWritable with
  | false => exact iff_of_false (fun h => nomatch h) (fun h => nomatch h.1)
  | true =>
      cases capitals given with
      | text s =>
          by_cases hs : s ∈ levelNames
          · constructor
            · intro h
              simp only [hs, if_true] at h
              cases h
              exact ⟨rfl, rfl, hs⟩
            · rintro ⟨-, hname, -⟩
              cases hname
              exact if_pos hs
          · constructor
            · intro h
              simp only [hs, if_false] at h
              cases h
            · rintro ⟨-, hname, hmem⟩
              cases hname
              exact absurd hmem hs
      | _ => exact iff_of_false (fun h => nomatch h) (fun h => nomatch h.2.1)

/-- A precision that is given as an integer is not negative. -/
theorem nonneg_of_isPrecision {s : Scalar} {n : Int} (h : isPrecision (.scalar s) = true)
    (hcount : s.count? = some (.integer n)) : 0 ≤ n := by
  cases s with
  | boolean b =>
      cases hcount
      split <;> decide
  | number m =>
      cases hcount
      exact of_decide_eq_true h
  | nothing | text | illFormed | moment | foreign => cases hcount

/-! ### All of them -/

/-- Settings that pass, with the variables, the section of the log and the name
of its level that are found in them. -/
structure Passes (es vars logging : Entries) (name : String) : Prop where
  depth : ∃ parser n, find? "parser" es = some (.mapping parser) ∧ 1 ≤ n ∧
    find? "max_depth" parser = some (.ofInt n)
  precision : ∃ output, find? "output" es = some (.mapping output) ∧
    isPrecision ((find? "precision" output).getD .nothing) = true
  log : find? "logging" es = some (.mapping logging)
  found : bindings es = .ok vars
  checked : checkVariables vars = .ok ()
  level : level logging = .ok name

/-- A check that refuses a datum unless it holds. -/
theorem checked_eq_ok {α : Type} {holds : Bool} {shown : Datum} {f : SettingsFault}
    {x : Except SettingsFault α} {a : α} :
    (if (!holds) = true then (do refuse (α := Unit) shown f; x) else x) = .ok a ↔
      holds = true ∧ x = .ok a := by
  cases holds with
  | true => simp
  | false =>
      simp only [Bool.not_false, if_true, except_bind_eq_ok, Bool.false_eq_true, false_and,
        iff_false]
      rintro ⟨u, hu, -⟩
      exact refuse_ne_ok hu

/-- A depth that is missing does not pass. -/
theorem isDepth_getD {found : Option Datum} :
    isDepth (found.getD .nothing) = true ↔ ∃ n, 1 ≤ n ∧ found = some (.ofInt n) := by
  cases found with
  | none => exact iff_of_false (fun h => nomatch h) (fun ⟨_, _, h⟩ => nomatch h)
  | some d =>
      rw [Option.getD_some, isDepth_iff]
      simp

/-- **Validation accepts the settings that pass**, and puts the variables and
the level into their normal form. -/
theorem validate_eq_ok {es' : Entries} : validate es = .ok es' ↔
    ∃ vars logging name, Passes es vars logging name ∧
      es' = withEntry "logging" (.mapping (withEntry "level" (.ofText name) logging))
        (withEntry "variables" (.mapping vars) es) := by
  unfold validate
  simp only [except_bind_eq_ok, checked_eq_ok, part_eq_ok, isDepth_getD]
  constructor
  · rintro ⟨parser, hparser, output, houtput, logging, hlogging, ⟨n, hn, hdepth⟩, vars, hvars,
      u, hchecked, hprecision, name, hlevel, hes'⟩
    refine ⟨vars, logging, name, ⟨⟨parser, n, hparser, hn, hdepth⟩, ⟨output, houtput, hprecision⟩,
      hlogging, hvars, hchecked, hlevel⟩, ?_⟩
    exact (Except.ok.inj hes').symm
  · rintro ⟨vars, logging, name, ⟨⟨parser, n, hparser, hn, hdepth⟩, ⟨output, houtput, hprecision⟩,
      hlogging, hvars, hchecked, hlevel⟩, rfl⟩
    exact ⟨parser, hparser, output, houtput, logging, hlogging, ⟨n, hn, hdepth⟩, vars, hvars,
      (), hchecked, hprecision, name, hlevel, rfl⟩

/-! ### Faults -/

/-- What a message of validation can show. -/
inductive Shown (es : Entries) : Datum → Prop
  | depth {parser : Entries} (h : find? "parser" es = some (.mapping parser)) :
      Shown es ((find? "max_depth" parser).getD .nothing)
  | name {vars : Entries} {k : Scalar} {d : Datum} (h : find? "variables" es = some (.mapping vars))
      (hmem : (k, d) ∈ vars) : Shown es (.scalar k)
  | value {vars : Entries} {k : Scalar} {d : Datum}
      (h : find? "variables" es = some (.mapping vars)) (hmem : (k, d) ∈ vars) : Shown es d
  | precision {output : Entries} (h : find? "output" es = some (.mapping output)) :
      Shown es ((find? "precision" output).getD .nothing)
  | level {logging : Entries} (h : find? "logging" es = some (.mapping logging)) :
      Shown es ((find? "level" logging).getD (.ofText "WARNING"))

/-- A fault with a diagnostic of settings, unless what it would show is not
writable. -/
def Explained (es : Entries) (f : SettingsFault) : Prop :=
  (∃ d, (Fault.settings f).diagnostic? = some d ∧ d.kind? = some .settings) ∨
    f = .unwritable ∧ ∃ d, Shown es d ∧ d.isWritable = false

/-- Any fault but that of a part that is missing. -/
def Present (f : SettingsFault) : Prop :=
  ∀ key, f ≠ .missing key

/-- Every fault but two has a diagnostic. -/
theorem explained_of_present {f : SettingsFault} (h : Present f) (hwritable : f ≠ .unwritable) :
    Explained es f := by
  left
  cases f with
  | missing key => exact absurd rfl (h key)
  | unwritable => exact absurd rfl hwritable
  | _ => exact ⟨_, rfl, rfl⟩

/-- A fault that is explained is not that of a missing part. -/
theorem Explained.present {f : SettingsFault} (h : Explained es f) : Present f := by
  intro key hkey
  subst hkey
  rcases h with ⟨d, hd, -⟩ | ⟨hf, -⟩
  · cases hd
  · cases hf

/-- A section fails for not being a mapping. -/
theorem part_explained {name : String} (h : (find? name es).isSome) :
    FailsOnly (Explained es) (part name es) := by
  obtain ⟨d, hd⟩ := Option.isSome_iff_exists.mp h
  unfold part required
  rw [hd]
  cases d with
  | mapping inner => trivial
  | _ => exact explained_of_present (fun _ => nofun) nofun

/-- A datum is refused with its fault, or with that of its digits. -/
theorem refuse_explained {α : Type} {d : Datum} {f : SettingsFault} (hd : Shown es d)
    (h : Explained es f) : FailsOnly (Explained es) (refuse (α := α) d f) := by
  unfold refuse
  split
  · exact h
  · next hwritable => exact .inr ⟨rfl, d, hd, by simpa using hwritable⟩

/-- Variables fail for a name or a value of theirs. -/
theorem checkVariables_explained {vars : Entries} (h : ∀ entry ∈ vars,
    Shown es (.scalar entry.1) ∧ Shown es entry.2) :
    FailsOnly (Explained es) (checkVariables vars) := by
  induction vars with
  | nil => trivial
  | cons entry rest ih =>
      obtain ⟨⟨hname, hvalue⟩, hrest⟩ := List.forall_mem_cons.mp h
      unfold checkVariables
      split
      · trivial
      · next hentry =>
          cases hentry
          split
          · split
            · exact ih hrest
            · exact refuse_explained hvalue (explained_of_present (fun _ => nofun) nofun)
          · exact explained_of_present (fun _ => nofun) nofun
      · next hentry =>
          cases hentry
          exact refuse_explained hname (explained_of_present (fun _ => nofun) nofun)

/-- The variables fail for not being a mapping. -/
theorem bindings_explained : FailsOnly (Explained es) (bindings es) := by
  unfold bindings
  split
  · trivial
  · split
    · trivial
    · split
      · trivial
      · exact explained_of_present (fun _ => nofun) nofun

/-- What is checked of the variables is in the settings. -/
theorem shown_of_bindings {vars : Entries} (h : bindings es = .ok vars) :
    ∀ entry ∈ vars, Shown es (.scalar entry.1) ∧ Shown es entry.2 := by
  intro entry hentry
  have hfound := bindings_eq_ok.mp h
  split at hfound
  · rw [hfound] at hentry
    cases hentry
  · exact ⟨.name hfound hentry, .value hfound hentry⟩

/-- The level fails for its name. -/
theorem level_explained {logging : Entries} (h : find? "logging" es = some (.mapping logging)) :
    FailsOnly (Explained es) (level logging) := by
  unfold level
  dsimp only
  split
  · next hwritable => exact .inr ⟨rfl, _, .level h, by simpa using hwritable⟩
  · split
    · split
      · trivial
      · exact explained_of_present (fun _ => nofun) nofun
    · exact explained_of_present (fun _ => nofun) nofun

/-- A check fails by its refusal, or by what comes after it. -/
theorem checked_failsOnly {α : Type} {F : SettingsFault → Prop} {holds : Bool} {shown : Datum}
    {f : SettingsFault} {x : Except SettingsFault α}
    (hrefuse : FailsOnly F (refuse (α := Unit) shown f)) (hx : FailsOnly F x) :
    FailsOnly F (if (!holds) = true then (do refuse (α := Unit) shown f; x) else x) := by
  split
  · exact hrefuse.bind fun _ _ => hx
  · exact hx

/-- **With all sections there, every fault is explained.** -/
theorem validate_explained (hparser : (find? "parser" es).isSome)
    (houtput : (find? "output" es).isSome) (hlogging : (find? "logging" es).isSome) :
    FailsOnly (Explained es) (validate es) := by
  refine (part_explained hparser).bind fun parser hparser => (part_explained houtput).bind
    fun output houtput => (part_explained hlogging).bind fun logging hlogging => ?_
  refine checked_failsOnly (refuse_explained (.depth (part_eq_ok.mp hparser))
    (explained_of_present (fun _ => nofun) nofun)) ?_
  refine bindings_explained.bind fun vars hvars =>
    (checkVariables_explained (shown_of_bindings hvars)).bind fun _ _ => ?_
  refine checked_failsOnly (refuse_explained (.precision (part_eq_ok.mp houtput))
    (explained_of_present (fun _ => nofun) nofun)) ?_
  exact (level_explained (part_eq_ok.mp hlogging)).bind fun name _ => trivial

/-- What is laid over the defaults has all sections, so it fails with an
explanation. -/
theorem validate_merge_explained (override : Entries) :
    FailsOnly (Explained (Datum.merge defaults override))
      (validate (Datum.merge defaults override)) :=
  validate_explained (isSome_find?_merge rfl _) (isSome_find?_merge rfl _)
    (isSome_find?_merge rfl _)

/-- Over the defaults nothing is missing. -/
theorem validate_merge_failsOnly (override : Entries) :
    FailsOnly Present (validate (Datum.merge defaults override)) :=
  (validate_merge_explained override).mono fun _ => Explained.present

end Settings

end Reckon
