import Reckon.Proofs.LoadedSettings
import Reckon.Proofs.UsableSettings
import Reckon.Settings.Store
/-!
# Settings that are held

From step to step the settings that are held stay held until they are dropped,
and change as they are told (`change_of_held`); a step that asks for settings
in vain leaves none (`Unloaded.held`).  Whatever the history, what is loaded
next is what the file says then, and the defaults are what they were
(`holds_of_reached`).  All of this holds whatever reader finds out what a file
says.
-/

namespace Reckon.Settings

/-! ### Steps -/

/-- The directory in which a step asks for settings, if it does. -/
def Step.asks? : Step → Option String
  | .mutate _ _ | .eval _ => some ""
  | .get directory => some directory
  | _ => none

namespace Store

/-- A store at the start of a process. -/
def start (files : FileTree) (sources : Sources) : Store :=
  ⟨files, sources, {}, none⟩

/-- The store after a step, whether that succeeds or fails. -/
def next (reader : Reader) (s : Store) (step : Step) : Store :=
  match Store.step reader step s with
  | .ok _ s' | .error _ s' => s'

/-- The store after some steps. -/
def after (reader : Reader) (s : Store) (steps : List Step) : Store :=
  steps.foldl (next reader) s

/-- What a history can come to. -/
inductive Reached (reader : Reader) : Store → Prop
  | start (files : FileTree) (sources : Sources) : Reached reader (start files sources)
  | next {s : Store} (h : Reached reader s) (step : Step) : Reached reader (s.next reader step)

variable {reader : Reader} {s s' : Store} {directory : String} {a : Address} {f : Fault}

theorem obtain_eq_ok : obtain reader directory s = .ok a s' ↔
    ∃ shared, Shared.obtain reader (pathIn directory) (s.files.find? (pathIn directory))
      s.shared =
      .ok a shared ∧ s' = { s with shared := shared } := by
  unfold obtain
  cases Shared.obtain reader (pathIn directory) (s.files.find? (pathIn directory)) s.shared with
  | ok b shared =>
      constructor
      · rintro ⟨⟩
        exact ⟨shared, rfl, rfl⟩
      · rintro ⟨_, ⟨⟩, rfl⟩
        rfl
  | error f shared => exact iff_of_false (fun h => nomatch h) fun ⟨_, h, _⟩ => nomatch h

theorem obtain_eq_error : obtain reader directory s = .error f s' ↔
    ∃ shared, Shared.obtain reader (pathIn directory) (s.files.find? (pathIn directory))
      s.shared =
      .error f shared ∧ s' = { s with shared := shared } := by
  unfold obtain
  cases Shared.obtain reader (pathIn directory) (s.files.find? (pathIn directory)) s.shared with
  | ok b shared => exact iff_of_false (fun h => nomatch h) fun ⟨_, h, _⟩ => nomatch h
  | error f shared =>
      constructor
      · rintro ⟨⟩
        exact ⟨shared, rfl, rfl⟩
      · rintro ⟨_, ⟨⟩, rfl⟩
        rfl

theorem obtain_of_held (h : s.shared.held = some a) (reader : Reader) (directory : String) :
    obtain reader directory s = .ok a s :=
  obtain_eq_ok.mpr ⟨s.shared, Shared.obtain_of_held h _ _ _, rfl⟩

/-- A step that asks in vain does nothing else. -/
theorem next_of_denied {step : Step} (hasks : step.asks? = some directory)
    (h : obtain reader directory s = .error f s') : s.next reader step = s' := by
  unfold next
  cases step with
  | write | remove | reset | alter => cases hasks
  | mutate name value =>
      cases hasks
      rw [Store.step, bind_eq_error.mpr (.inl h)]
  | get directory =>
      cases hasks
      rw [Store.step, bind_eq_error.mpr (.inl h)]
  | eval source =>
      cases hasks
      rw [Store.step, bind_eq_error.mpr (.inl h)]

/-- To evaluate leaves memory as it is. -/
theorem evaluate_keeps (shared : Shared) (work : Work Float) :
    Keeps (fun s => s.shared = shared) (evaluate work) fun _ => True := by
  intro s hs
  unfold evaluate
  cases work (Desk.fresh s.sources) with
  | ok x desk => exact ⟨hs, trivial⟩
  | error f desk => exact hs

/-- A step that is given settings sets a variable in them, or leaves memory as
it is. -/
theorem shared_next_of_obtained {step : Step} (hasks : step.asks? = some directory)
    (h : obtain reader directory s = .ok a s') :
    (s.next reader step).shared = match step with
      | .mutate name value => s'.shared.editVariables a (.set (.text name) value)
      | _ => s'.shared := by
  unfold next
  cases step with
  | write | remove | reset | alter => cases hasks
  | mutate name value =>
      cases hasks
      rw [Store.step, bind_of_ok h]
      rfl
  | get directory =>
      cases hasks
      rw [Store.step, bind_of_ok h]
      rfl
  | eval source =>
      cases hasks
      rw [Store.step, bind_of_ok h, bind_of_ok (x := get) rfl]
      have hkept := evaluate_keeps s'.shared
        (do Work.valueOf (← Work.applySettings (s'.entriesAt a)) source) s' rfl
      dsimp only
      generalize evaluate _ s' = result at hkept ⊢
      cases result with
      | ok reply s'' => exact hkept.1
      | error f s'' => exact hkept

/-! ### What every history keeps -/

/-- What was given is held. -/
theorem held_of_obtained (h : s.shared.Sound) (hobtain : obtain reader directory s = .ok a s') :
    s'.shared.Sound ∧ s'.shared.held = some a := by
  obtain ⟨shared, hrun, rfl⟩ := obtain_eq_ok.mp hobtain
  exact h.held_of_obtained hrun

/-- What was asked for in vain leaves nothing held. -/
theorem held_of_denied (h : s.shared.Sound) (hobtain : obtain reader directory s = .error f s') :
    s'.shared.Sound ∧ s'.shared.held = none := by
  obtain ⟨shared, hrun, rfl⟩ := obtain_eq_error.mp hobtain
  exact h.held_of_denied hrun

/-- **A step keeps what was loaded apart**, and from the defaults. -/
theorem sound_next (h : s.shared.Sound) (step : Step) : (s.next reader step).shared.Sound := by
  cases hasks : step.asks? with
  | none =>
      cases step with
      | write | remove => exact h
      | reset => exact h.drop
      | alter load edit =>
          show (s.alter load edit).shared.Sound
          unfold alter
          cases hload : s.shared.loads[load]? with
          | none => exact h
          | some a => exact (h.editVariables (List.mem_of_getElem? hload) edit).1
      | mutate | get | eval => cases hasks
  | some directory =>
      cases hobtain : obtain reader directory s with
      | ok a s' =>
          obtain ⟨hsound, hheld⟩ := held_of_obtained h hobtain
          rw [shared_next_of_obtained hasks hobtain]
          split
          · exact (hsound.editVariables (hsound.mem_loads hheld) _).1
          · exact hsound
      | error f s' =>
          rw [next_of_denied hasks hobtain]
          exact (held_of_denied h hobtain).1

theorem Reached.sound (h : s.Reached reader) : s.shared.Sound := by
  induction h with
  | start files sources => exact Shared.sound_start
  | next h step ih => exact sound_next ih step

end Store

/-- What a step makes of settings that are held, as the entries they have. -/
def Step.change (loads : List Address) (a : Address) (step : Step) (es : Entries) : Entries :=
  match step with
  | .mutate name value => editVariables (.set (.text name) value) es
  | .alter load edit => if loads[load]? = some a then editVariables edit es else es
  | _ => es

namespace Store

variable {reader : Reader} {s : Store} {a : Address}

/-- To edit settings has no part in which of them are held. -/
theorem shared_alter (s : Store) (load : Nat) (edit : Edit) :
    (s.alter load edit).shared.held = s.shared.held ∧
      (s.alter load edit).shared.loads = s.shared.loads := by
  unfold alter
  split <;> exact ⟨rfl, rfl⟩

theorem entriesAt_alter (h : s.shared.Sound) (ha : a ∈ s.shared.loads) (load : Nat)
    (edit : Edit) :
    (s.alter load edit).entriesAt a =
      if s.shared.loads[load]? = some a then Settings.editVariables edit (s.entriesAt a)
      else s.entriesAt a := by
  unfold alter
  by_cases hload : s.shared.loads[load]? = some a
  · rw [if_pos hload]
    simp only [hload]
    exact ((h.editVariables ha edit).2 a ha).trans (if_pos rfl)
  · rw [if_neg hload]
    cases hother : s.shared.loads[load]? with
    | none => rfl
    | some b =>
        have hentries := (h.editVariables (List.mem_of_getElem? hother) edit).2 a ha
        exact hentries.trans (if_neg fun heq => hload (by rw [hother, heq]))

/-- What is held stays held until it is dropped, and changes as it is told. -/
theorem change_of_held (h : s.shared.Sound) (hheld : s.shared.held = some a) {step : Step}
    (hstep : step ≠ .reset) :
    (s.next reader step).shared.held = some a ∧ (s.next reader step).shared.loads = s.shared.loads ∧
      (s.next reader step).entriesAt a = step.change s.shared.loads a (s.entriesAt a) := by
  have ha := h.mem_loads hheld
  cases hasks : step.asks? with
  | none =>
      cases step with
      | write | remove => exact ⟨hheld, rfl, rfl⟩
      | reset => exact absurd rfl hstep
      | alter load edit =>
          obtain ⟨hheld', hloads⟩ := shared_alter s load edit
          exact ⟨hheld'.trans hheld, hloads, entriesAt_alter h ha load edit⟩
      | mutate | get | eval => cases hasks
  | some directory =>
      have hshared := shared_next_of_obtained hasks (obtain_of_held hheld reader directory)
      unfold entriesAt Step.change
      rw [hshared]
      cases step with
      | write | remove | reset | alter => cases hasks
      | get | eval => exact ⟨hheld, rfl, rfl⟩
      | mutate name value =>
          refine ⟨hheld, rfl, ?_⟩
          rw [(h.editVariables ha _).2 a ha, if_pos rfl]

/-- And so it does over any number of steps. -/
theorem after_of_held {later : List Step} (hlater : Step.reset ∉ later) :
    ∀ {s : Store}, s.shared.Sound → s.shared.held = some a →
      (s.after reader later).shared.held = some a ∧
        (s.after reader later).entriesAt a =
          later.foldl (fun es step => step.change s.shared.loads a es) (s.entriesAt a) := by
  induction later with
  | nil => exact fun _ hheld => ⟨hheld, rfl⟩
  | cons step later ih =>
      intro s h hheld
      rw [List.mem_cons, not_or] at hlater
      obtain ⟨hheld', hloads, hentries⟩ := change_of_held h hheld (Ne.symm hlater.1)
      have hafter := ih hlater.2 (sound_next h step) hheld'
      rw [hloads, hentries] at hafter
      exact hafter

/-- Nothing was loaded since the last time that settings were dropped, or since
the start: every step that asked for some has asked in vain. -/
inductive Unloaded (reader : Reader) : Store → Prop
  | start (files : FileTree) (sources : Sources) : Unloaded reader (start files sources)
  | reset {s : Store} (h : s.Reached reader) : Unloaded reader (s.next reader .reset)
  | next {s : Store} (h : Unloaded reader s) (step : Step)
      (hdenied : ∀ directory, step.asks? = some directory →
        fails (obtain reader directory s) = true) :
      Unloaded reader (s.next reader step)

theorem Unloaded.reached (h : s.Unloaded reader) : s.Reached reader := by
  induction h with
  | start files sources => exact .start files sources
  | reset h => exact h.next .reset
  | next h step hdenied ih => exact ih.next step

/-- Then nothing is held. -/
theorem Unloaded.held (h : s.Unloaded reader) : s.shared.held = none := by
  induction h with
  | start | reset => rfl
  | @next s h step hdenied ih =>
      cases hasks : step.asks? with
      | none =>
          cases step with
          | write | remove => exact ih
          | reset => rfl
          | alter load edit => exact (shared_alter s load edit).1.trans ih
          | mutate | get | eval => cases hasks
      | some directory =>
          have hfails := hdenied directory hasks
          cases hobtain : obtain reader directory s with
          | ok a s' =>
              rw [hobtain] at hfails
              cases hfails
          | error f s' =>
              rw [next_of_denied hasks hobtain]
              exact (held_of_denied h.reached.sound hobtain).2

/-- How settings are held in a store, when a reader finds out what files say. -/
structure Holds (reader : Reader) (s : Store) : Prop where
  /-- The defaults are what they were. -/
  defaults : s.entriesAt s.shared.defaults = Settings.defaults
  /-- Once settings were given, the very same are given until they are dropped,
  whatever directory is asked for, and with the changes that were made to them. -/
  held : ∀ directory a s', obtain reader directory s = .ok a s' →
    ∀ later, Step.reset ∉ later →
      (∀ other, obtain reader other (s'.after reader later) = .ok a (s'.after reader later)) ∧
        (s'.after reader later).entriesAt a =
          later.foldl (fun es step => step.change s'.shared.loads a es) (s'.entriesAt a)
  /-- Settings that cannot be given are not held either. -/
  failed : ∀ directory f s', obtain reader directory s = .error f s' → s'.shared.held = none
  /-- If none were loaded yet, what is given is what the file of the directory
  says, and new: nothing that was loaded before. -/
  loaded : s.Unloaded reader → ∀ directory,
    match load reader (pathIn directory) (s.files.find? (pathIn directory)) with
    | .ok es => ∃ a s', obtain reader directory s = .ok a s' ∧ s'.entriesAt a = es ∧
        a ∉ s.shared.loads
    | .error f => ∃ s', obtain reader directory s = .error f s'

/-- **Settings are held as they should**, whatever the history and whatever the
reader. -/
theorem holds_of_reached (h : s.Reached reader) : s.Holds reader := by
  refine ⟨?_, ?_, ?_, ?_⟩
  · obtain ⟨given, loaded, hkept⟩ := h.sound
    exact hkept.entries_defaults
  · intro directory a s' hobtain later hlater
    obtain ⟨hsound, hheld⟩ := held_of_obtained h.sound hobtain
    obtain ⟨hheld, hentries⟩ := after_of_held hlater hsound hheld
    exact ⟨obtain_of_held hheld reader, hentries⟩
  · exact fun directory f s' hobtain => (held_of_denied h.sound hobtain).2
  · intro hunloaded directory
    cases hload : load reader (pathIn directory) (s.files.find? (pathIn directory)) with
    | ok es =>
        obtain ⟨a, shared, hrun, -, -, hnew, hentries⟩ :=
          h.sound.obtain_of_load hunloaded.held hload
        exact ⟨a, _, obtain_eq_ok.mpr ⟨shared, hrun, rfl⟩, hentries, hnew⟩
    | error f =>
        obtain ⟨shared, hrun, -⟩ := h.sound.obtain_of_fault hunloaded.held hload
        exact ⟨_, obtain_eq_error.mpr ⟨shared, hrun, rfl⟩⟩

/-- A text of settings with a variable. -/
def heldText : String :=
  "variables:\n  g: 10\n"

/-- A reader that knows what it holds. -/
def heldReader : Reader :=
  knowing heldText.toUTF8.toList
    (.mapping [(.text "variables", .mapping [(.text "g", .ofInt 10)])])

/-- A store in which the variable of the settings in a file was set. -/
def mutated : Store :=
  (start .empty (.fresh fun _ => 0)).after heldReader
    [.write "" heldText, .get "", .mutate "g" (.ofInt 1)]

/-- The store is reached by its three steps. -/
theorem reached_mutated : mutated.Reached heldReader :=
  .next (.next (.next (.start _ _) _) _) _

/-- The number of a variable in the settings that are given for a directory. -/
def number? (reader : Reader) (directory name : String) (s : Store) : Option Number :=
  match obtain reader directory s with
  | .ok a s' =>
    match ((find? "variables" (s'.entriesAt a)).bind Datum.entries?).bind (find? name) with
    | some (.scalar (.number n)) => some n
    | _ => none
  | .error _ _ => none

/-- What was set is given for any directory, and after a reset what the file
says. -/
theorem holds_mutated : mutated.Reached heldReader ∧ mutated.Holds heldReader ∧
    number? heldReader "elsewhere" "g" mutated = some (.integer 1) ∧
    number? heldReader "" "g" (mutated.next heldReader .reset) = some (.integer 10) :=
  ⟨reached_mutated, holds_of_reached reached_mutated, by decide +kernel, by decide +kernel⟩

end Store

end Reckon.Settings
