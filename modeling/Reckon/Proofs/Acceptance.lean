import Reckon.Fault
import Reckon.Proofs.Validation
/-!
# Settings that are accepted

What settings may hold is documented for each part (`Settings.Documented`).
Validation accepts all that is documented, and two things besides: a truth value
for the precision, and for the variables anything that counts as absent.

A level that passes is always writable, since no name of a level has a digit, a
quote or a bracket in it (`Settings.writable_of_capitals`).  Otherwise a value that is
refused has to be written into the message, and that fails for integers with too
many digits (`Settings.Explained`).
-/

namespace Reckon

/-! ### Texts that are no names of levels -/

/-- A character that stands for itself in upper case is in the text. -/
theorem Text.mem_upper {c : Char} {s : String} (hc : c ∈ s.toList) (hsame : upperChar c = [c]) :
    c ∈ (upper s).toList := by
  rw [upper, String.toList_ofList]
  exact List.mem_flatMap.mpr ⟨c, hc, by rw [hsame]; exact List.mem_singleton_self c⟩

namespace Settings

/-- The digits, and the quotes and brackets of what is made of parts: a text
that is not writable has one of them. -/
def levelless : List Char :=
  ['0', '1', '2', '3', '4', '5', '6', '7', '8', '9'] ++ foreignMarks

theorem mem_levelless_of_isDigit {c : Char} (h : c.isDigit = true) : c ∈ levelless := by
  have hall : ∀ k < 10, Char.ofNat (48 + k) ∈ levelless := by decide
  have hbounds : 48 ≤ c.toNat ∧ c.toNat ≤ 57 := by
    simpa [Char.isDigit, UInt32.le_iff_toNat_le] using h
  have hmem := hall (c.toNat - 48) (by omega)
  rwa [show 48 + (c.toNat - 48) = c.toNat by omega, Char.ofNat_toNat] at hmem

/-- Integers have digits. -/
theorem exists_digit (n : Int) : ∃ c ∈ (toString n).toList, c ∈ levelless := by
  have hdigit : ∀ m : Nat, ∃ c ∈ m.repr.toList, c ∈ levelless := by
    intro m
    obtain ⟨c, hc⟩ := List.exists_mem_of_ne_nil _ (Nat.toDigits_ne_nil (n := m) (b := 10))
    have hdigit := Nat.isDigit_of_mem_toDigits (by decide) (by decide) hc
    refine ⟨c, ?_, mem_levelless_of_isDigit hdigit⟩
    rwa [Nat.toList_repr]
  cases n with
  | ofNat m => exact hdigit m
  | negSucc m =>
      obtain ⟨c, hc, hless⟩ := hdigit (m + 1)
      refine ⟨c, ?_, hless⟩
      show c ∈ ("-" ++ (m + 1).repr).toList
      rw [String.toList_append]
      exact List.mem_append_right _ hc

/-- A datum that is not writable has a digit, a quote or a bracket in its text. -/
theorem exists_levelless {d : Datum} (h : d.isWritable = false) :
    ∃ c ∈ d.plain.toList, c ∈ levelless := by
  cases d with
  | scalar s =>
      cases s with
      | number n =>
          cases n with
          | integer n => exact exists_digit n
          | double x => cases h
      | foreign value =>
          obtain ⟨c, hc, hmark⟩ := value.marked
          exact ⟨c, hc, List.mem_append_right _ hmark⟩
      | nothing | boolean | text | illFormed | moment => cases h
  | list items =>
      refine ⟨'[', ?_, by decide⟩
      simp [Datum.plain, Datum.describe]
  | mapping es =>
      refine ⟨'\x7b', ?_, by decide⟩
      simp [Datum.plain, Datum.describe]
  | supplier | tree => cases h

/-- **What comes to a name of a level is writable.** -/
theorem writable_of_capitals {d : Datum} {name : String} (h : capitals d = .text name)
    (hname : name ∈ levelNames) : d.isWritable = true := by
  cases hwritable : d.isWritable with
  | true => rfl
  | false =>
      have hupper : capitals d = .text (Text.upper d.plain) := by
        unfold capitals
        split
        · cases hwritable
        · rfl
      rw [hupper] at h
      cases h
      obtain ⟨c, hc, hless⟩ := exists_levelless hwritable
      have hsame : levelless.all (fun c => Text.upperChar c == [c]) = true := by decide +kernel
      have hfree : levelNames.all (fun name => name.toList.all (· ∉ levelless)) = true := by decide
      have hmem := Text.mem_upper hc (eq_of_beq (List.all_eq_true.mp hsame c hless))
      have hnot := List.all_eq_true.mp (List.all_eq_true.mp hfree _ hname) c hmem
      exact absurd hless (of_decide_eq_true hnot)

/-! ### What is accepted -/

/-- Settings with a positive depth, the name of a level, and variables and a
precision of given kinds. -/
structure Admits (variablesOk precisionOk : Datum → Prop) (es : Entries) : Prop where
  depth : ∃ parser n, find? "parser" es = some (.mapping parser) ∧ 1 ≤ n ∧
    find? "max_depth" parser = some (.ofInt n)
  bound : variablesOk ((find? "variables" es).getD .nothing)
  precision : ∃ output, find? "output" es = some (.mapping output) ∧
    precisionOk ((find? "precision" output).getD .nothing)
  level : ∃ logging, find? "logging" es = some (.mapping logging) ∧ ∃ name ∈ levelNames,
    capitals ((find? "level" logging).getD (.ofText "WARNING")) = .text name

/-- Variables are nothing, or names of small letters with numbers. -/
def DocumentedVariables (d : Datum) : Prop :=
  d = .nothing ∨ ∃ vars, d = .mapping (variableEntries vars) ∧
    ∀ v ∈ vars, isVariableName v.1 = true

/-- A precision is nothing, or an integer that is not negative. -/
def DocumentedPrecision (d : Datum) : Prop :=
  d = .nothing ∨ ∃ n, 0 ≤ n ∧ d = .ofInt n

/-- Settings as they are documented. -/
abbrev Documented (es : Entries) : Prop :=
  Admits DocumentedVariables DocumentedPrecision es

/-- Settings with variables that count as absent, or with a truth value for the
precision, besides those that are documented. -/
abbrev Accepted (es : Entries) : Prop :=
  Admits (fun d => d.isVoid = true ∨ DocumentedVariables d)
    (fun d => (∃ b, d = .scalar (.boolean b)) ∨ DocumentedPrecision d) es

variable {es : Entries}

theorem isPrecision_iff {d : Datum} :
    isPrecision d = true ↔ (∃ b, d = .scalar (.boolean b)) ∨ DocumentedPrecision d := by
  constructor
  · intro h
    unfold isPrecision at h
    split at h
    · exact .inr (.inl rfl)
    · next b => exact .inl ⟨b, rfl⟩
    · next n => exact .inr (.inr ⟨n, of_decide_eq_true h, rfl⟩)
    · cases h
  · intro h
    rcases h with ⟨b, rfl⟩ | rfl | ⟨n, hn, rfl⟩
    · rfl
    · rfl
    · exact decide_eq_true hn

/-- The variables are checked unless they count as absent. -/
theorem bindings_checked_iff : (∃ vars, bindings es = .ok vars ∧ checkVariables vars = .ok ()) ↔
    ((find? "variables" es).getD .nothing).isVoid = true ∨
      DocumentedVariables ((find? "variables" es).getD .nothing) := by
  constructor
  · intro h
    obtain ⟨given, hfound, hchecked⟩ := h
    have hgiven := bindings_eq_ok.mp hfound
    split at hgiven
    · next hvoid => exact .inl hvoid
    · obtain ⟨vars, rfl, hnames⟩ := checkVariables_eq_ok.mp hchecked
      exact .inr (.inr ⟨vars, by rw [hgiven]; rfl, hnames⟩)
  · intro h
    by_cases hvoid : ((find? "variables" es).getD .nothing).isVoid = true
    · exact ⟨[], bindings_eq_ok.mpr (by rw [if_pos hvoid]), rfl⟩
    · rcases h with hvoid' | hnothing | ⟨vars, hvars, hnames⟩
      · exact absurd hvoid' hvoid
      · rw [hnothing] at hvoid
        exact absurd rfl hvoid
      · refine ⟨variableEntries vars, ?_, checkVariables_eq_ok.mpr ⟨vars, rfl, hnames⟩⟩
        rw [bindings_eq_ok, if_neg hvoid]
        cases hfound : find? "variables" es with
        | none =>
            rw [hfound] at hvoid
            exact absurd rfl hvoid
        | some d =>
            rw [hfound] at hvars
            exact congrArg some hvars

/-- **Validation accepts** what is documented, and besides that only those two. -/
theorem validate_isOk_iff : (∃ es', validate es = .ok es') ↔ Accepted es := by
  constructor
  · intro h
    obtain ⟨es', h⟩ := h
    obtain ⟨vars, logging, name, hpasses, -⟩ := validate_eq_ok.mp h
    obtain ⟨output, houtput, hprecision⟩ := hpasses.precision
    obtain ⟨-, hcapitals, hname⟩ := level_eq_ok.mp hpasses.level
    exact ⟨hpasses.depth, bindings_checked_iff.mp ⟨vars, hpasses.found, hpasses.checked⟩,
      ⟨output, houtput, isPrecision_iff.mp hprecision⟩,
      logging, hpasses.log, name, hname, hcapitals⟩
  · intro h
    obtain ⟨vars, hfound, hchecked⟩ := bindings_checked_iff.mpr h.bound
    obtain ⟨output, houtput, hprecision⟩ := h.precision
    obtain ⟨logging, hlog, name, hname, hcapitals⟩ := h.level
    have hlevel := level_eq_ok.mpr ⟨writable_of_capitals hcapitals hname, hcapitals, hname⟩
    exact ⟨_, validate_eq_ok.mpr ⟨vars, logging, name, ⟨h.depth,
      ⟨output, houtput, isPrecision_iff.mpr hprecision⟩, hlog, hfound, hchecked, hlevel⟩, rfl⟩⟩

/-- **What is accepted, and how the rest is refused.**  Validation accepts settings
as they are documented, and besides those only a truth value for the precision
and variables that count as absent; and every fault has a diagnostic of settings,
unless a value that its message would show is not writable. -/
theorem validate_accepts (override : Entries) :
    ((∃ es', validate (Datum.merge defaults override) = .ok es') ↔
      Accepted (Datum.merge defaults override)) ∧
    ∀ f, validate (Datum.merge defaults override) = .error f →
      Explained (Datum.merge defaults override) f :=
  ⟨validate_isOk_iff, fun _ h => (validate_merge_explained override).of_error h⟩

/-- With all sections there, a depth that is none is refused before anything else. -/
theorem validate_of_not_depth {parser output logging : Entries}
    (hparser : find? "parser" es = some (.mapping parser))
    (houtput : find? "output" es = some (.mapping output))
    (hlogging : find? "logging" es = some (.mapping logging)) {d : Datum}
    (hd : (find? "max_depth" parser).getD .nothing = d) (hdepth : isDepth d = false) :
    validate es = refuse d (.depth d) := by
  unfold validate
  rw [part_eq_ok.mpr hparser, except_ok_bind, part_eq_ok.mpr houtput, except_ok_bind,
    part_eq_ok.mpr hlogging, except_ok_bind]
  dsimp only
  rw [hd, hdepth]
  simp only [refuse]
  cases d.isWritable <;> rfl

/-- A truth value for the precision, and an empty list for the variables. -/
def looseSettings : Entries :=
  [(.text "output", .mapping [(.text "precision", .scalar (.boolean true))]),
    (.text "variables", .list [])]

/-- A depth of more digits than are written. -/
def endlessDepth : Datum :=
  .ofInt (-Int.ofNat (Nat.pow 10 Number.digitLimit))

/-- Settings pass that are not documented; and an integer that is refused, but
cannot be shown, leads to a fault without a diagnostic. -/
theorem undocumented_settings_pass :
    (∃ es', validate (Datum.merge defaults looseSettings) = .ok es') ∧
    ¬ Documented (Datum.merge defaults looseSettings) ∧
    validate (Datum.merge defaults
      [(.text "parser", .mapping [(.text "max_depth", endlessDepth)])]) = .error .unwritable ∧
    (Fault.settings .unwritable).diagnostic? = none := by
  refine ⟨⟨_, rfl⟩, ?_, ?_, rfl⟩
  · intro h
    obtain ⟨output, houtput, hprecision⟩ := h.precision
    cases houtput
    rcases hprecision with hnothing | ⟨n, -, hn⟩
    · cases hnothing
    · cases hn
  · have hwritable : endlessDepth.isWritable = false := by decide +kernel
    rw [validate_of_not_depth (d := endlessDepth) rfl rfl rfl rfl (by decide +kernel), refuse,
      hwritable]
    rfl

end Settings

end Reckon
